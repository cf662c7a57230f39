import QueryAlgebra.Tree.Fields
import QueryAlgebra.Tree.Key

/-!
# Texts and schemas of trees

* `Feature.text`, `Source.text`: trees for readers.
* `Source.label`: the short name by which the elements of a source are shown.
* `Source.schema`: the schema of a source; tables keep their own.
* `Source.get`: the element of a source for an attribute or a field name.
* `featureTexts_eq`: the text of a statement without a selection lists the texts of the features
  that its source offers.
* `schema_fields`: the fields of the schema are the fields of the source.
-/

namespace QueryAlgebra

/-- The short name of a source, given its text: tables and references have a name. -/
def Source.labelOr (s : Source) (text : Unit → String) : String :=
  match s with
  | .table schema  => schema.name
  | .reference _ n => n
  | _              => text ()

/-- Whether a feature stands in parentheses as an operand. -/
def Feature.isCompound : Feature → Bool
  | .expression op _ _ => op.fixity != .call
  | _                  => false

/-- The text of an argument as an operand: compound ones stand in parentheses. -/
def operandText (compound : Bool) (text : String) : String :=
  if compound then "(" ++ text ++ ")" else text

/-- An operator's expression as text, from the texts of its arguments, each compound or not. -/
def Operator.exprText (op : Operator) (compound : List Bool) (args : List String)
    (target : Option Kind) : String :=
  let operands := compound.zipWith operandText args
  match op.fixity with
  | .between => String.intercalate (" " ++ op.symbol ++ " ") operands
  | .front   => op.symbol ++ " " ++ String.intercalate " " operands
  | .behind  => String.intercalate " " operands ++ " " ++ op.symbol
  | .call    =>
    match op, target with
    | .cast, some k => "cast(" ++ String.intercalate ", " args ++ ", " ++ k.text ++ ")"
    | _,     _      =>
      op.symbol ++ "(" ++ (if args.isEmpty then "*" else String.intercalate ", " args) ++ ")"

/-- A part of a text that stands only when its list is not empty. -/
def part (opening : String) (items : List String) (closing : String) : List String :=
  if items.isEmpty then [] else [opening ++ String.intercalate ", " items ++ closing]

mutual

/-- A feature for readers. -/
def Feature.text : Feature → String
  | .aliased f n          => f.text ++ " AS " ++ n
  | .literal v _          => v.display
  | .element s n _        => s.labelOr (fun _ => s.text) ++ "." ++ n
  | .expression op args t => op.exprText (args.map Feature.isCompound) (featureTexts args) t
  | .window fn ps os fr   =>
    fn.text ++ ".over(" ++ String.intercalate ", "
      (part "partition(" (featureTexts ps) ")" ++ part "orderby(" (orderTexts os) ")"
        ++ (match fr with | some f => ["frame(" ++ f.key ++ ")"] | none => [])) ++ ")"

def featureTexts : List Feature → List String
  | []     => []
  | f :: r => f.text :: featureTexts r

/-- A feature to order by, for readers. -/
def OrderTerm.text : OrderTerm → String
  | .by f d => f.text ++ " " ++ d.name

def orderTexts : List OrderTerm → List String
  | []     => []
  | o :: r => o.text :: orderTexts r

/-- A part of a text that stands only when there is a feature. -/
def optionText (opening : String) (closing : String) : Option Feature → String
  | none   => ""
  | some f => opening ++ f.text ++ closing

/-- A source for readers. -/
def Source.text : Source → String
  | .table schema   => schema.name
  | .reference s n  => n ++ "=[" ++ s.text ++ "]"
  | .join l r k c   =>
    l.text ++ " " ++ k.name.toUpper ++ " JOIN " ++ r.text ++ optionText " ON " "" c
  | .set l r k      => l.text ++ " " ++ k.name ++ " " ++ r.text
  | .query s sel pre grp post ord rows =>
    s.text ++ "["
      ++ String.intercalate ", " (if sel.isEmpty then s.featureTexts else featureTexts sel) ++ "]"
      ++ optionText ".where(" ")" pre
      ++ String.intercalate "" (part ".groupby(" (featureTexts grp) ")")
      ++ optionText ".having(" ")" post
      ++ String.intercalate "" (part ".orderby(" (orderTexts ord) ")")
      ++ (match rows with | some r => "[" ++ r.key ++ "]" | none => "")

/-- The texts of the features that a source offers. -/
def Source.featureTexts : Source → List String
  | .table schema      =>
    (schema.fields.map schema.resolve).map fun f => schema.name ++ "." ++ f.name
  | .reference s n     => (s.fields.map s.resolve).map fun f => n ++ "." ++ f.name
  | .join l r _ _      => l.featureTexts ++ r.featureTexts
  | .set l _ _         => l.featureTexts
  | .query s sel _ _ _ _ _ => if sel.isEmpty then s.featureTexts else QueryAlgebra.featureTexts sel

end

theorem featureTexts_eq_map (fs : List Feature) : featureTexts fs = fs.map Feature.text := by
  induction fs with
  | nil => rfl
  | cons f r ih => simp [featureTexts, ih]

/-- The texts that a source lists are the texts of its features. -/
theorem Source.featureTexts_eq : (s : Source) → s.featureTexts = s.features.map Feature.text
  | .table schema => by simp [Source.featureTexts, Source.features, Feature.text, Source.labelOr]
  | .reference s n => by simp [Source.featureTexts, Source.features, Feature.text, Source.labelOr]
  | .join l r _ _ => by
    simp [Source.featureTexts, Source.features, featureTexts_eq l, featureTexts_eq r]
  | .set l _ _ => by simp [Source.featureTexts, Source.features, featureTexts_eq l]
  | .query s sel _ _ _ _ _ => by
    cases sel with
    | nil => simpa [Source.featureTexts, Source.features] using featureTexts_eq s
    | cons f r => simp [Source.featureTexts, Source.features, featureTexts_eq_map]

namespace Source

/-- The short name of a source. -/
def label (s : Source) : String := s.labelOr fun _ => s.text

/-- A schema of distinctly named fields, each declared under its own name. -/
def schemaNamed (name : String) (fields : List NamedField) : Schema :=
  ⟨name, fields.map fun f => (f.name, f)⟩

/-- The schema of a source. References and set operations have the schema of what they wrap and of
their left statement; joins and statements list their fields under their own text. -/
def schema : Source → Schema
  | .table s        => s
  | .reference s _  => s.schema
  | .set l _ _      => l.schema
  | .join l r k c   => schemaNamed (Source.join l r k c).text (Source.join l r k c).fields
  | .query s sel pre grp post ord rows =>
    let q := Source.query s sel pre grp post ord rows
    schemaNamed q.text q.fields

theorem fields_schemaNamed (name : String) (fs : List NamedField) :
    (schemaNamed name fs).fields = fs := by
  simp [schemaNamed, Schema.fields, Function.comp_def]

/-- The fields of a source's schema are the fields of the source. -/
theorem schema_fields : (s : Source) → s.schema.fields = s.fields
  | .table _       => rfl
  | .reference s _ => by simp only [schema, fields]; exact schema_fields s
  | .set l _ _     => by simp only [schema, fields]; exact schema_fields l
  | .join ..       => by simp only [schema, fields_schemaNamed]
  | .query ..      => by simp only [schema, fields_schemaNamed]

/-- The element of a source for an attribute or a field name. -/
def get (s : Source) (name : String) : Except Fault Feature := do
  let f ← s.schema.get name
  return .element s f.name f.kind

end Source

end QueryAlgebra
