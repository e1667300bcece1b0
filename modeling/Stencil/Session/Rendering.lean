import Stencil.Session.State

/-!
# Rendering

A filled state is written part by part: text as it stands, a variable by its slot, a nested
template by the states of its repetitions in order. Values were escaped when they were bound, so
nothing is changed here. What is not bound yet writes nothing.

**Chunks** (`State.chunks`). The texts that are written, one for each literal text and each filled
slot, empty ones included.
-/

namespace Stencil

namespace State

/-- The texts that a state writes, in order. -/
def chunks (s : State) : List Text :=
  s.template.parts.zipIdx.flatMap fun (part, i) =>
    match part with
    | .text t => [t]
    | .var _ _ _ => (s.slot i).toList
    | .nested name _ _ _ => (s.childrenOf name).attach.flatMap fun ⟨c, _⟩ => chunks c
termination_by sizeOf s
decreasing_by exact sizeOf_lt_of_mem_childrenOf ‹_›

/-- Writes a state through `emit`, up to the first text that is refused. -/
def write {m : Type → Type} [Monad m] (emit : Text → m Unit) (s : State) : m Unit :=
  s.chunks.forM emit

/-- The text that a state writes. -/
def render (s : State) : Text := s.chunks.flatten

end State

end Stencil
