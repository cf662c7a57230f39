import QueryAlgebra.Proofs.Value.Key
import QueryAlgebra.Tree.Key

/-!
# What a key keeps of a tree

A key keeps all of a tree but the signs of zeros, the names of schemas and the attributes their
fields were declared with, and the kinds of elements, which are those of fields.

* `Feature.canonical`, `OrderTerm.canonical`, `Source.canonical`: the tree without what its key does
  not keep.
* `Feature.key_canonical`, `OrderTerm.key_canonical`, `Source.key_canonical`: the key of that tree is
  the same.
-/

namespace QueryAlgebra

/-- An end of a frame without the sign of a zero. -/
def FrameEnd.canonical : FrameEnd → FrameEnd
  | .offset n => .offset n.unsignedZero
  | e         => e

/-- A frame without the signs of zeros. -/
def Frame.canonical (f : Frame) : Frame := ⟨f.mode, f.start.canonical, f.stop.canonical⟩

/-- The fields of a schema, each under its own name, in a schema without a name. -/
def Schema.canonical (s : Schema) : Schema := ⟨"", s.fields.map fun f => (f.name, f)⟩

mutual

/-- What a key keeps of a feature. -/
def Feature.canonical : Feature → Feature
  | .aliased f n          => .aliased f.canonical n
  | .literal v k          => .literal v.canonical k
  | .element s n _        => .element s.canonical n default
  | .expression op args t => .expression op (canonicalFeatures args) t
  | .window fn ps os fr   =>
    .window fn.canonical (canonicalFeatures ps) (canonicalTerms os) (fr.map Frame.canonical)

def canonicalFeatures : List Feature → List Feature
  | []     => []
  | f :: r => f.canonical :: canonicalFeatures r

/-- What a key keeps of a feature to order by. -/
def OrderTerm.canonical : OrderTerm → OrderTerm
  | .by f d => .by f.canonical d

def canonicalTerms : List OrderTerm → List OrderTerm
  | []     => []
  | o :: r => o.canonical :: canonicalTerms r

def canonicalOption : Option Feature → Option Feature
  | none   => none
  | some f => some f.canonical

/-- What a key keeps of a source. -/
def Source.canonical : Source → Source
  | .table schema  => .table schema.canonical
  | .reference s n => .reference s.canonical n
  | .join l r k c  => .join l.canonical r.canonical k (canonicalOption c)
  | .set l r k     => .set l.canonical r.canonical k
  | .query s sel pre grp post ord rows =>
    .query s.canonical (canonicalFeatures sel) (canonicalOption pre) (canonicalFeatures grp)
      (canonicalOption post) (canonicalTerms ord) rows

end

theorem canonicalFeatures_eq_map (fs : List Feature) :
    canonicalFeatures fs = fs.map Feature.canonical := by
  induction fs with
  | nil => rfl
  | cons f r ih => simp [canonicalFeatures, ih]

theorem canonicalTerms_eq_map (os : List OrderTerm) :
    canonicalTerms os = os.map OrderTerm.canonical := by
  induction os with
  | nil => rfl
  | cons o r ih => simp [canonicalTerms, ih]

theorem featureKeys_eq_map (fs : List Feature) : featureKeys fs = fs.map Feature.key := by
  induction fs with
  | nil => rfl
  | cons f r ih => simp [featureKeys, ih]

theorem orderKeys_eq_map (os : List OrderTerm) : orderKeys os = os.map OrderTerm.key := by
  induction os with
  | nil => rfl
  | cons o r ih => simp [orderKeys, ih]

/-! ### The key of what a key keeps -/

theorem FrameEnd.text_canonical (e : FrameEnd) : e.canonical.text = e.text := by
  cases e with
  | offset n => exact Number.text_unsignedZero n
  | _ => rfl

theorem Frame.key_canonical (f : Frame) : f.canonical.key = f.key := by
  simp [Frame.key, Frame.canonical, FrameEnd.text_canonical]

theorem Schema.fields_canonical (s : Schema) : s.canonical.fields = s.fields := by
  simp [Schema.canonical, Schema.fields, Function.comp_def]

theorem Schema.key_canonical (s : Schema) : s.canonical.key = s.key := by
  simp [Schema.key, Schema.fields_canonical]

mutual

/-- What a key keeps of a feature has the same key. -/
theorem Feature.key_canonical : ∀ f : Feature, f.canonical.key = f.key
  | .aliased f n => by simp [Feature.canonical, Feature.key, Feature.key_canonical f]
  | .literal v k => by simp [Feature.canonical, Feature.key, Value.key_canonical v]
  | .element s n _ => by simp [Feature.canonical, Feature.key, Source.key_canonical s]
  | .expression op args t => by
    simp [Feature.canonical, Feature.key, featureKeys_canonical args]
  | .window fn ps os fr => by
    cases fr <;> simp [Feature.canonical, Feature.key, Feature.key_canonical fn,
      featureKeys_canonical ps, orderKeys_canonical os, Frame.key_canonical]

theorem featureKeys_canonical :
    ∀ fs : List Feature, featureKeys (canonicalFeatures fs) = featureKeys fs
  | [] => rfl
  | f :: r => by
    simp [canonicalFeatures, featureKeys, Feature.key_canonical f, featureKeys_canonical r]

/-- What a key keeps of a feature to order by has the same key. -/
theorem OrderTerm.key_canonical : ∀ o : OrderTerm, o.canonical.key = o.key
  | .by f d => by simp [OrderTerm.canonical, OrderTerm.key, Feature.key_canonical f]

theorem orderKeys_canonical :
    ∀ os : List OrderTerm, orderKeys (canonicalTerms os) = orderKeys os
  | [] => rfl
  | o :: r => by
    simp [canonicalTerms, orderKeys, OrderTerm.key_canonical o, orderKeys_canonical r]

theorem optionKey_canonical : ∀ o : Option Feature, optionKey (canonicalOption o) = optionKey o
  | none => rfl
  | some f => by simp [canonicalOption, optionKey, Feature.key_canonical f]

/-- What a key keeps of a source has the same key. -/
theorem Source.key_canonical : ∀ s : Source, s.canonical.key = s.key
  | .table schema => by simp [Source.canonical, Source.key, Schema.key_canonical]
  | .reference s n => by simp [Source.canonical, Source.key, Source.key_canonical s]
  | .join l r k c => by
    simp [Source.canonical, Source.key, Source.key_canonical l, Source.key_canonical r,
      optionKey_canonical c]
  | .set l r k => by
    simp [Source.canonical, Source.key, Source.key_canonical l, Source.key_canonical r]
  | .query s sel pre grp post ord rows => by
    simp [Source.canonical, Source.key, Source.key_canonical s, featureKeys_canonical sel,
      optionKey_canonical pre, featureKeys_canonical grp, optionKey_canonical post,
      orderKeys_canonical ord]

end

end QueryAlgebra
