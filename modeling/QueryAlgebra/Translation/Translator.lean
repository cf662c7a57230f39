import QueryAlgebra.Translation.Trees

/-!
# Translators

* `Translator`: a backend, and all that translating with it has left behind.
* `Translator.run`: runs a computation. The state that it reaches is kept, also after a fault.
* `translate`, `symbolOf`, `finish`: what is done with a tree, be it a source or a feature.
* `Request`: all that a translator can be asked for; `Translator.serve` answers it.
-/

namespace QueryAlgebra.Translation

variable {m : Type → Type} [Monad m] {S F α : Type}

/-- A tree to translate. -/
abbrev Tree := Symbol Source Feature

/-- Translates a tree and leaves its symbol on the stack. -/
def translate (h : Hooks m S F) : Tree → MachineT m S F Unit
  | .source s  => translateSource h s
  | .feature f => translateFeature h f

/-- Translates a tree and takes its symbol. -/
def symbolOf (h : Hooks m S F) : Tree → MachineT m S F (Symbol S F)
  | .source s  => return .source (← symbolOfSource h s)
  | .feature f => return .feature (← symbolOfFeature h f)

/-- Translates a tree as the only content of the current scope. -/
def finish (h : Hooks m S F) : Tree → MachineT m S F (Symbol S F)
  | .source s  => return .source (← finishSource h s)
  | .feature f => return .feature (← finishFeature h f)

/-- A backend with the state of the translations done so far. -/
structure Translator (S F : Type) where
  backend : Backend S F
  state   : State S F

/-- What a translator may be asked for. -/
inductive Request where
  | translate   (t : Tree)
  | symbolOf (t : Tree)
  | finish  (t : Tree)
  /-- The only symbol of the current scope. -/
  | sole
  | soleSource
  | soleFeature

/-- Does what is asked for, and yields the symbol if one is taken. -/
def Request.serve (h : Hooks m S F) : Request → MachineT m S F (Option (Symbol S F))
  | .translate t     => do
    Translation.translate h t
    return none
  | .symbolOf t   => some <$> Translation.symbolOf h t
  | .finish t    => some <$> Translation.finish h t
  | .sole        => some <$> Translation.sole
  | .soleSource  => return some (.source (← Translation.soleSource))
  | .soleFeature => return some (.feature (← Translation.soleFeature))

namespace Translator

/-- A translator that has done nothing yet. -/
def ofBackend (b : Backend S F) : Translator S F := ⟨b, .fresh⟩

/-- The translator without the scans and notes it has recorded. -/
def cleared (t : Translator S F) : Translator S F :=
  { t with state := { t.state with scans := [], notes := [] } }

/-- Runs a computation and keeps the state it reaches. -/
def run (t : Translator S F) (act : Hooks Id S F → Machine S F α) :
    Except Fault α × Translator S F :=
  let (r, st) := (act t.backend.hooks).run t.state
  (r, { t with state := st })

/-- Serves a request, with scans and notes recorded anew. -/
def serve (t : Translator S F) (q : Request) :
    Except Fault (Option (Symbol S F)) × Translator S F :=
  t.cleared.run fun h => q.serve h

end Translator

end QueryAlgebra.Translation
