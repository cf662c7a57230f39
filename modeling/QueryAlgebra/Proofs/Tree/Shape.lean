import QueryAlgebra.Proofs.Tree.Elements

/-!
# Shapes of trees

What is left of a tree when elements go by labels, values have no signs of zeros, and operators name
a target only if they cast to it. Trees of one shape are written alike.

* `Source.handle`, `Feature.handles`: the names that elements go by.
* `Feature.shape`, `Source.shape`: shapes of trees, whose elements have the labels of their sources.
* `Feature.handles_shape`: the labels are the names that the elements of a shape go by.
-/

namespace QueryAlgebra

/-- The name that the elements of a source go by. -/
def Source.handle : Source → String
  | .table t       => t.name
  | .reference _ n => n
  | _              => ""

/-- The name that an element goes by. -/
def Feature.handle : Feature → String
  | .element s _ _ => s.handle
  | _              => ""

/-- The names that the elements inside a feature go by. -/
def Feature.handles (f : Feature) : List String := f.elements.map Feature.handle

/-- The kind that a cast names; other operators name none. -/
def Operator.castKind (op : Operator) (target : Option Kind) : Option Kind :=
  if op = .cast then some (op.resultKind [] target) else none

/-- The features that a statement was given to select. -/
def Source.selection : Source → List Feature
  | .query _ sel .. => sel
  | _               => []

section

variable (label : Source → String → String)

mutual

/-- The shape of a feature whose elements have labels. -/
def Feature.shape : Feature → Feature
  | .aliased f n          => .aliased f.shape n
  | .literal v k          => .literal v.canonical k
  | .element s n _        => .element (.table ⟨label s n, []⟩) n default
  | .expression op args t => .expression op (featureShapes args) (op.castKind t)
  | .window fn ps os fr   =>
    .window fn.shape (featureShapes ps) (termShapes os) (fr.map Frame.canonical)

def featureShapes : List Feature → List Feature
  | []     => []
  | f :: r => f.shape :: featureShapes r

/-- The shape of a feature to order by. -/
def OrderTerm.shape : OrderTerm → OrderTerm
  | .by f d => .by f.shape d

def termShapes : List OrderTerm → List OrderTerm
  | []     => []
  | o :: r => o.shape :: termShapes r

end

/-- The shape of a source whose statements list the given features. -/
def Source.shape (listed : Source → List Feature) : Source → Source
  | .table t       => .table ⟨t.name, []⟩
  | .reference s n => .reference (s.shape listed) n
  | .join l r k c  => .join (l.shape listed) (r.shape listed) k (c.map (Feature.shape label))
  | .set l r k     => .set (l.shape listed) (r.shape listed) k
  | .query s sel pre grp post ord rows =>
    .query (s.shape listed)
      ((listed (.query s sel pre grp post ord rows)).map (Feature.shape label))
      (pre.map (Feature.shape label)) (grp.map (Feature.shape label))
      (post.map (Feature.shape label)) (ord.map (OrderTerm.shape label)) rows

variable {label}

theorem featureShapes_eq_map (fs : List Feature) :
    featureShapes label fs = fs.map (Feature.shape label) := by
  induction fs with
  | nil => rfl
  | cons f r ih => simp [featureShapes, ih]

theorem termShapes_eq_map (os : List OrderTerm) :
    termShapes label os = os.map (OrderTerm.shape label) := by
  induction os with
  | nil => rfl
  | cons o r ih => simp [termShapes, ih]

end

/-! ### Shapes of skeletons -/

/-- The shape of a feature whose elements go by their own names. -/
abbrev Feature.ownShape (f : Feature) : Feature := f.shape fun s _ => s.handle

/-- The shape of a source whose elements go by their own names and whose statements list what they
were given to select. -/
abbrev Source.ownShape (s : Source) : Source := s.shape (fun t _ => t.handle) Source.selection

/-- The names that the elements inside a feature go by are those of its parts. -/
theorem Feature.handles_eq {f : Feature} (h : f.isElement = false) :
    f.handles = f.children.flatMap handles := by
  unfold handles
  rw [elements_eq, h, if_neg (by simp), List.map_flatMap]

/-- The handles of the elements in the shape of a feature are their labels. -/
theorem Feature.handles_shape {label : Source → String → String} : ∀ f : Feature,
    (∀ s n k, Feature.element s n k ∈ f.elements → label s n = s.handle) →
      (f.shape label).handles = f.handles := by
  unfold Feature.handles
  refine childInduction fun f ih h => ?_
  have parts : ∀ c ∈ f.children, (c.shape label).elements.map handle = c.elements.map handle :=
    fun c hc => ih c hc fun s n k he => h s n k (elements_of_child hc he)
  have lists : ∀ fs : List Feature, (∀ c ∈ fs, c ∈ f.children) →
      (elementsOf (featureShapes label fs)).map handle = (elementsOf fs).map handle := by
    intro fs hfs
    induction fs with
    | nil => rfl
    | cons c r ihr =>
      simp only [featureShapes, elementsOf, List.map_append, parts c (hfs c (by simp)),
        ihr fun d hd => hfs d (by simp [hd])]
  cases f with
  | aliased f n => simpa [shape, elements] using parts f (by simp [children])
  | literal v k => rfl
  | element s n k => simp [shape, elements, handle, Source.handle, h s n k (by simp [elements])]
  | expression op args t => simpa [shape, elements] using lists args fun c hc => hc
  | window fn ps os fr =>
    have terms : ∀ us : List OrderTerm, (∀ o ∈ us, o ∈ os) →
        (elementsOfTerms (termShapes label us)).map handle = (elementsOfTerms us).map handle := by
      intro us hus
      induction us with
      | nil => rfl
      | cons o r ihr =>
        cases o with
        | «by» f d =>
          have hf := parts f (by
            simpa [children] using Or.inr (Or.inr ⟨_, hus _ List.mem_cons_self, rfl⟩))
          simp only [termShapes, OrderTerm.shape, elementsOfTerms, List.map_append, hf,
            ihr fun d hd => hus d (by simp [hd])]
    simp only [shape, elements, List.map_append, parts fn (by simp [children]),
      lists ps fun c hc => by simp [children, hc], terms os fun o ho => ho]

end QueryAlgebra
