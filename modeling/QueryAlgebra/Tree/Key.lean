import QueryAlgebra.Tree.Basic
import QueryAlgebra.Value.Text

/-!
# Keys of trees

* `Feature.key`, `OrderTerm.key`, `Source.key`: texts that encode the structure of a tree.
* `Feature.hash`, `OrderTerm.hash`, `Source.hash`: the hashes of the keys.
* `Frame.key`, `RowRange.key`: frames and row limits as they stand in keys and texts.
-/

namespace QueryAlgebra

namespace FrameEnd

def text : FrameEnd → String
  | .unbounded => "unbounded"
  | .current   => "current"
  | .offset n  => n.text

end FrameEnd

/-- A frame as text: its mode and its two ends. -/
def Frame.key (f : Frame) : String :=
  f.mode.name ++ ":" ++ f.start.text ++ ":" ++ f.stop.text

namespace RowRange

def countText (r : RowRange) : String := (Number.ofNat r.count).text

def offsetText (r : RowRange) : String := (Number.ofNat r.offset).text

/-- A row limit as text: the offset and the count. -/
def key (r : RowRange) : String := r.offsetText ++ ":" ++ r.countText

end RowRange

mutual

/-- A text that encodes the structure of a feature. -/
def Feature.key : Feature → String
  | .aliased f n          => "Aliased(" ++ f.key ++ " AS " ++ Text.json n ++ ")"
  | .literal v k          => "Literal(" ++ k.key ++ ":" ++ v.key ++ ")"
  | .element s n _        => "Element(" ++ s.key ++ "." ++ Text.json n ++ ")"
  | .expression op args t =>
    op.name ++ "(" ++ String.intercalate "," (featureKeys args) ++ ")"
      ++ (match t with | some k => ":" ++ k.key | none => "")
  | .window fn ps os fr   =>
    String.intercalate "|" ["Window(" ++ fn.key, String.intercalate "," (featureKeys ps),
      String.intercalate "," (orderKeys os),
      (match fr with | some f => f.key | none => "") ++ ")"]

def featureKeys : List Feature → List String
  | []     => []
  | f :: r => f.key :: featureKeys r

/-- A text that encodes a feature to order by. -/
def OrderTerm.key : OrderTerm → String
  | .by f d => f.key ++ " " ++ d.name

def orderKeys : List OrderTerm → List String
  | []     => []
  | o :: r => o.key :: orderKeys r

/-- The key of a feature that may be missing. -/
def optionKey : Option Feature → String
  | none   => ""
  | some f => f.key

/-- A text that encodes the structure of a source. -/
def Source.key : Source → String
  | .table schema   => "Table" ++ schema.key
  | .reference s n  => "Reference(" ++ s.key ++ " AS " ++ Text.json n ++ ")"
  | .join l r k c   =>
    "Join(" ++ l.key ++ " " ++ k.name ++ " " ++ r.key ++ " ON " ++ optionKey c ++ ")"
  | .set l r k      => "Set(" ++ l.key ++ " " ++ k.name ++ " " ++ r.key ++ ")"
  | .query s sel pre grp post ord rows =>
    String.intercalate "|" ["Query(" ++ s.key,
      "select:" ++ String.intercalate "," (featureKeys sel),
      "where:" ++ optionKey pre,
      "groupby:" ++ String.intercalate "," (featureKeys grp),
      "having:" ++ optionKey post,
      "orderby:" ++ String.intercalate "," (orderKeys ord),
      "rows:" ++ (match rows with | some r => r.key | none => "") ++ ")"]

end

instance : Keyed Feature := ⟨Feature.key⟩

instance : Keyed Source := ⟨Source.key⟩

instance : Keyed OrderTerm := ⟨OrderTerm.key⟩

def Feature.hash (f : Feature) : UInt32 := Text.hash32 f.key

def Source.hash (s : Source) : UInt32 := Text.hash32 s.key

def OrderTerm.hash (o : OrderTerm) : UInt32 := Text.hash32 o.key

end QueryAlgebra
