import Mathlib.Data.List.Induction
import Mathlib.Tactic.Common

namespace Traitor.Lib.Runs

variable {ε : Type} {events : List ε} {Inv : List ε → Prop} {Ok Bad : List ε → ε → Prop}

/-- What holds at first and is kept by every step of a run holds all along. -/
theorem all_along (hstart : Inv [])
    (hstep : ∀ before e, before ++ [e] <+: events → Inv before → Inv (before ++ [e])) :
    ∀ before, before <+: events → Inv before := by
  intro before
  induction before using List.reverseRecOn with
  | nil => exact fun _ => hstart
  | append_singleton before e ih =>
      exact fun hbefore => hstep before e hbefore (ih ((List.prefix_append before [e]).trans hbefore))

/-- Where every step keeps an invariant if and only if it is none of the bad ones, the invariant is
kept all along a run if and only if the run has no bad step. -/
theorem all_along_iff (Inv : List ε → Prop) (hstart : Inv [])
    (hstep : ∀ before e, before ++ [e] <+: events → Inv before →
      (Ok before e ∧ Inv (before ++ [e]) ↔ ¬ Bad before e)) :
    (∀ before e, before ++ [e] <+: events → Ok before e ∧ Inv (before ++ [e])) ↔
      ∀ before e, before ++ [e] <+: events → ¬ Bad before e := by
  constructor
  · intro hall before e hbefore
    have hinv : Inv before := by
      refine all_along hstart ?_ before (List.prefix_refl before)
      exact fun b e' hb _ => (hall b e' (hb.trans ((List.prefix_append before [e]).trans hbefore))).2
    exact (hstep before e hbefore hinv).mp (hall before e hbefore)
  · intro hgood before e hbefore
    have hinv : Inv before := by
      refine all_along hstart ?_ before ((List.prefix_append before [e]).trans hbefore)
      exact fun b e' hb h => ((hstep b e' hb h).mpr (hgood b e' hb)).2
    exact (hstep before e hbefore hinv).mpr (hgood before e hbefore)

end Traitor.Lib.Runs
