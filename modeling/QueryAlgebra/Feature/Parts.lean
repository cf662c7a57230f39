import QueryAlgebra.Tree.Text

/-!
# The parts of features

* `partsIn`: the given features and everything inside them, one for each key. Later features and
  later parts come first.
* `elementsIn`, `columnsIn`: the elements among them, and those that belong to tables.
* `Feature.isCollective`: aggregates and windows; `Feature.hasCollective`, `Feature.hasWindow`,
  `Feature.hasAggregate`: whether one lies inside, for aggregates outside of any window.
-/

namespace QueryAlgebra

/-- Adds a feature that is new to a set and goes on inside it. -/
def KeyedSet.enter (f : Feature) (inside : KeyedSet Feature → KeyedSet Feature)
    (seen : KeyedSet Feature) : KeyedSet Feature :=
  if seen.has f then seen else inside (seen.add f)

mutual

/-- Adds a feature and everything inside it to a set. -/
def Feature.collect (f : Feature) (seen : KeyedSet Feature) : KeyedSet Feature :=
  match f with
  | .aliased g n          => KeyedSet.enter (.aliased g n) g.collect seen
  | .literal v k          => KeyedSet.enter (.literal v k) id seen
  | .element s n k        => KeyedSet.enter (.element s n k) id seen
  | .expression op args t => KeyedSet.enter (.expression op args t) (collectAll args) seen
  | .window fn ps os fr   =>
    KeyedSet.enter (.window fn ps os fr)
      (fun s => fn.collect (collectAll ps (collectTerms os s))) seen

def collectAll (fs : List Feature) (seen : KeyedSet Feature) : KeyedSet Feature :=
  match fs with
  | []     => seen
  | f :: r => f.collect (collectAll r seen)

def collectTerms (os : List OrderTerm) (seen : KeyedSet Feature) : KeyedSet Feature :=
  match os with
  | []         => seen
  | .by f _ :: r => f.collect (collectTerms r seen)

end

/-- The features and everything inside them. -/
def partsIn (fs : List Feature) : KeyedSet Feature := collectAll fs .empty

namespace Feature

def isElement : Feature → Bool
  | .element .. => true
  | _           => false

/-- The schema of the table that an element belongs to. -/
def table? : Feature → Option Schema
  | .element (.table s) _ _ => some s
  | _                       => none

def aggregates : Feature → Bool
  | .expression op _ _ => op.aggregates
  | _                  => false

def isWindow : Feature → Bool
  | .window .. => true
  | _          => false

/-- Whether the feature itself is an aggregate or a window. -/
def isCollective (f : Feature) : Bool := f.isWindow || f.aggregates

end Feature

/-- The elements inside features. -/
def elementsIn (fs : List Feature) : KeyedSet Feature :=
  .ofList ((partsIn fs).toList.filter Feature.isElement)

/-- The elements of tables inside features. -/
def columnsIn (fs : List Feature) : List Feature :=
  (elementsIn fs).toList.filter fun f => f.table?.isSome

namespace Feature

/-- Whether an aggregate or a window lies inside the feature. -/
def hasCollective (f : Feature) : Bool := (partsIn [f]).toList.any isCollective

/-- Whether a window lies inside the feature. -/
def hasWindow (f : Feature) : Bool := (partsIn [f]).toList.any isWindow

mutual

/-- Whether an aggregate lies inside the feature, outside of any window. -/
def hasAggregate : Feature → Bool
  | .expression op args _ => op.aggregates || anyAggregate args
  | .aliased f _          => f.hasAggregate
  | _                     => false

def anyAggregate : List Feature → Bool
  | []     => false
  | f :: r => f.hasAggregate || anyAggregate r

end

/-! ### Refusals -/

/-- Passes on a predicate without its alias. -/
def asPredicate (f : Feature) : Except Fault Feature :=
  if f.kind.isBoolean then .ok f.bare else .error (.notAPredicate f.text)

/-- Refuses a feature with an aggregate or a window inside. -/
def refuseCollective (f : Feature) : Except Fault Unit :=
  if f.hasCollective then .error (.collective f.text) else .ok ()

/-- Refuses a feature with a window inside. -/
def refuseWindow (f : Feature) : Except Fault Unit :=
  if f.hasWindow then .error (.windowed f.text) else .ok ()

/-- Refuses a feature with an element outside a set; `owner` says whose features the set holds. -/
def requireWithin (superset : KeyedSet Feature) (owner : String) (f : Feature) :
    Except Fault Unit :=
  if (elementsIn [f]).subset superset then .ok () else .error (.notASubset f.text owner)

end Feature

end QueryAlgebra
