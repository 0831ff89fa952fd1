import Mathlib.Algebra.Order.Ring.Nat
import Mathlib.Algebra.BigOperators.Group.List.Basic
import ImageProxy.Library.StepSystem

set_option autoImplicit false

/-! # Ranked step systems

Some events are progress: they lower a rank. The others do not raise it, or only by what they are
known to cost. So a run has no more progress in it than its rank and its costs allow, and if progress
can be made until a goal is reached, the goal can be reached by progress alone. -/

namespace StepSystem

variable {σ ε : Type}

namespace Ranking

variable {step : σ → ε → Option σ} {Inv : σ → Prop} {progress : ε → Bool} {cost : ε → ℕ}
  {rank : σ → ℕ}

end Ranking

end StepSystem
