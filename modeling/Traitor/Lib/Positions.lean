import Mathlib.Data.List.Basic
import Mathlib.Tactic.Common

namespace Traitor.Lib.Positions

variable {α : Type} {l : List α} {start stop : Int} {b e : Nat}

/-- A negative position counts from the end. -/
def fromEnd (n : Nat) (i : Int) : Int := if i < 0 then i + n else i

def Covers (n : Nat) (start stop : Int) (p : Nat) : Prop := p < n ∧ fromEnd n start ≤ p ∧ p ≤ fromEnd n stop

instance (n : Nat) (start stop : Int) (p : Nat) : Decidable (Covers n start stop p) :=
  inferInstanceAs (Decidable (_ ∧ _))

def select (l : List α) (start stop : Int) : List α :=
  (l.zipIdx.filter fun a => Covers l.length start stop a.2).map Prod.fst

def leave (l : List α) (start stop : Int) : List α :=
  (l.zipIdx.filter fun a => ¬ Covers l.length start stop a.2).map Prod.fst

theorem filter_zipIdx (l : List α) (k b e : Nat) :
    ((l.zipIdx k).filter fun a => b ≤ a.2 ∧ a.2 < e).map Prod.fst = (l.take (e - k)).drop (b - k) := by
  induction l generalizing k with
  | nil => simp
  | cons a l ih =>
      rw [List.zipIdx_cons, List.filter_cons]
      by_cases he : k < e
      · rw [show e - k = (e - (k + 1)) + 1 by omega, List.take_succ_cons]
        by_cases hb : b ≤ k
        · rw [if_pos (by simp [hb, he]), List.map_cons, ih, show b - k = 0 by omega,
            show b - (k + 1) = 0 by omega, List.drop_zero, List.drop_zero]
        · rw [if_neg (by simp [hb]), ih, show b - k = (b - (k + 1)) + 1 by omega, List.drop_succ_cons]
      · rw [if_neg (by simp [he]), ih, show e - k = 0 by omega, show e - (k + 1) = 0 by omega]
        simp

theorem filter_not_zipIdx (l : List α) (k b e : Nat) (hle : b ≤ e) :
    ((l.zipIdx k).filter fun a => ¬ (b ≤ a.2 ∧ a.2 < e)).map Prod.fst =
      l.take (b - k) ++ l.drop (e - k) := by
  induction l generalizing k with
  | nil => simp
  | cons a l ih =>
      rw [List.zipIdx_cons, List.filter_cons]
      by_cases hb : b ≤ k
      · rw [show b - k = 0 by omega, List.take_zero, List.nil_append]
        by_cases he : k < e
        · rw [if_neg (by simp [hb, he]), ih, show e - k = (e - (k + 1)) + 1 by omega, List.drop_succ_cons,
            show b - (k + 1) = 0 by omega, List.take_zero, List.nil_append]
        · rw [if_pos (by simp [he]), List.map_cons, ih, show e - k = 0 by omega, show e - (k + 1) = 0 by omega,
            show b - (k + 1) = 0 by omega]
          simp
      · rw [if_pos (by simp [hb]), List.map_cons, ih, show b - k = (b - (k + 1)) + 1 by omega,
          show e - k = (e - (k + 1)) + 1 by omega, List.take_succ_cons, List.drop_succ_cons, List.cons_append]

theorem filter_positions {P Q : Nat → Prop} [DecidablePred P] [DecidablePred Q]
    (h : ∀ p < l.length, P p ↔ Q p) :
    (l.zipIdx.filter fun a => P a.2) = l.zipIdx.filter fun a => Q a.2 := by
  apply List.filter_congr
  intro a ha
  exact decide_eq_decide.mpr (h a.2 (List.snd_lt_of_mem_zipIdx ha))

theorem select_eq (h : ∀ p < l.length, Covers l.length start stop p ↔ b ≤ p ∧ p < e) :
    select l start stop = (l.take e).drop b := by
  rw [select, filter_positions h]
  exact filter_zipIdx l 0 b e

theorem leave_eq (h : ∀ p < l.length, Covers l.length start stop p ↔ b ≤ p ∧ p < e) (hle : b ≤ e) :
    leave l start stop = l.take b ++ l.drop e := by
  rw [leave, filter_positions fun p hp => not_congr (h p hp)]
  exact filter_not_zipIdx l 0 b e hle

theorem select_eq_nil (h : ∀ p < l.length, ¬ Covers l.length start stop p) : select l start stop = [] := by
  rw [select_eq (b := 0) (e := 0) fun p hp => iff_of_false (h p hp) (by omega)]
  rfl

theorem leave_eq_self (h : ∀ p < l.length, ¬ Covers l.length start stop p) : leave l start stop = l := by
  rw [leave_eq (b := 0) (e := 0) (fun p hp => iff_of_false (h p hp) (by omega)) (Nat.le_refl 0)]
  rfl

theorem select_ne_nil {p : Nat} (h : Covers l.length start stop p) : select l start stop ≠ [] := by
  have hp : p < l.length := h.1
  have hmem : (l[p], p) ∈ l.zipIdx := List.mk_mem_zipIdx_iff_getElem?.mpr (List.getElem?_eq_getElem hp)
  exact List.ne_nil_of_mem (List.mem_map_of_mem (List.mem_filter.mpr ⟨hmem, by simpa using h⟩))

end Traitor.Lib.Positions
