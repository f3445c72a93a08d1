import Mathlib.Data.List.Basic
import Mathlib.Data.List.TakeWhile
import Mathlib.Order.Basic
import Mathlib.Tactic.Common

namespace Traitor.Lib.Windows

variable {α : Type}

theorem exists_split (p : α → Bool) {l : List α} (hp : l.Pairwise fun a b => p b = true → p a = true) :
    ∃ front back, l = front ++ back ∧ (∀ a ∈ front, p a = true) ∧ ∀ b ∈ back, p b = false := by
  induction l with
  | nil => exact ⟨[], [], rfl, by simp, by simp⟩
  | cons a l ih =>
      obtain ⟨ha, hp⟩ := List.pairwise_cons.mp hp
      by_cases hpa : p a = true
      · obtain ⟨front, back, rfl, hfront, hback⟩ := ih hp
        exact ⟨a :: front, back, rfl, List.forall_mem_cons.mpr ⟨hpa, hfront⟩, hback⟩
      · have hnone : ∀ b ∈ l, p b = false := fun b hb => by
          by_contra hb'
          exact hpa (ha b hb (by simpa using hb'))
        exact ⟨[], a :: l, rfl, by simp, List.forall_mem_cons.mpr ⟨by simpa using hpa, hnone⟩⟩

/-- Pairs are ordered by their first components, and those with the same one by the second. -/
theorem lex_trans {β : Type} [Preorder α] [Preorder β] {a₁ a₂ a₃ : α} {b₁ b₂ b₃ : β}
    (h : a₁ < a₂ ∨ a₁ = a₂ ∧ b₁ < b₂) (h' : a₂ < a₃ ∨ a₂ = a₃ ∧ b₂ ≤ b₃) : a₁ < a₃ ∨ a₁ = a₃ ∧ b₁ < b₃ := by
  rcases h with h | ⟨rfl, hb⟩ <;> rcases h' with h' | ⟨rfl, hb'⟩
  · exact .inl (h.trans h')
  · exact .inl h
  · exact .inl h'
  · exact .inr ⟨rfl, hb.trans_le hb'⟩

theorem takeWhile_append_stop {p : α → Bool} {front back : List α} {x : α} (hfront : ∀ a ∈ front, p a = true)
    (hx : p x = false) : (front ++ x :: back).takeWhile p = front := by
  rw [List.takeWhile_append_of_pos hfront, List.takeWhile_cons_of_neg (by simp [hx]), List.append_nil]

theorem dropWhile_append_stop {p : α → Bool} {front back : List α} {x : α} (hfront : ∀ a ∈ front, p a = true)
    (hx : p x = false) : (front ++ x :: back).dropWhile p = x :: back := by
  rw [List.dropWhile_append_of_pos hfront, List.dropWhile_cons_of_neg (by simp [hx])]

theorem takeWhile_split {p : α → Bool} {front back : List α} (hfront : ∀ a ∈ front, p a = true)
    (hback : ∀ a ∈ back, p a = false) : (front ++ back).takeWhile p = front := by
  cases back with
  | nil => rw [List.append_nil, List.takeWhile_eq_self_iff.mpr hfront]
  | cons x back => exact takeWhile_append_stop hfront (hback x List.mem_cons_self)

theorem dropWhile_split {p : α → Bool} {front back : List α} (hfront : ∀ a ∈ front, p a = true)
    (hback : ∀ a ∈ back, p a = false) : (front ++ back).dropWhile p = back := by
  cases back with
  | nil => rw [List.append_nil, List.dropWhile_eq_nil_iff.mpr hfront]
  | cons x back => exact dropWhile_append_stop hfront (hback x List.mem_cons_self)

structure Window (less greater : α → Bool) (l below inside above : List α) : Prop where
  eq : l = below ++ (inside ++ above)
  below : ∀ a ∈ below, less a = false
  inside : ∀ a ∈ inside, less a = true ∧ greater a = true
  above : ∀ a ∈ above, less a = true ∧ greater a = false

variable {less greater : α → Bool} {l below inside above : List α}

theorem exists_window (hless : l.Pairwise fun a b => less b = false → less a = false)
    (hgreater : l.Pairwise fun a b => greater b = true → greater a = true) :
    ∃ below inside above, Window less greater l below inside above := by
  obtain ⟨below, rest, rfl, hbelow, hrest⟩ := exists_split (fun a => !less a) (hless.imp fun h => by simpa using h)
  obtain ⟨inside, above, rfl, hinside, habove⟩ := exists_split greater (List.pairwise_append.mp hgreater).2.1
  have hrest' (a : α) (ha : a ∈ inside ++ above) : less a = true := by simpa using hrest a ha
  refine ⟨below, inside, above, rfl, fun a ha => by simpa using hbelow a ha, fun a ha => ⟨?_, hinside a ha⟩,
    fun a ha => ⟨?_, habove a ha⟩⟩
  · exact hrest' a (List.mem_append_left _ ha)
  · exact hrest' a (List.mem_append_right _ ha)

namespace Window

theorem filter_eq (h : Window less greater l below inside above) :
    l.filter (fun a => less a && greater a) = inside := by
  have hbelow : below.filter (fun a => less a && greater a) = [] :=
    List.filter_eq_nil_iff.mpr fun a ha => by simp [h.below a ha]
  have hinside : inside.filter (fun a => less a && greater a) = inside :=
    List.filter_eq_self.mpr fun a ha => by simp [h.inside a ha]
  have habove : above.filter (fun a => less a && greater a) = [] :=
    List.filter_eq_nil_iff.mpr fun a ha => by simp [h.above a ha]
  rw [h.eq, List.filter_append, List.filter_append, hbelow, hinside, habove, List.nil_append, List.append_nil]

theorem filter_not (h : Window less greater l below inside above) :
    l.filter (fun a => !(less a && greater a)) = below ++ above := by
  have hbelow : below.filter (fun a => !(less a && greater a)) = below :=
    List.filter_eq_self.mpr fun a ha => by simp [h.below a ha]
  have hinside : inside.filter (fun a => !(less a && greater a)) = [] :=
    List.filter_eq_nil_iff.mpr fun a ha => by simp [h.inside a ha]
  have habove : above.filter (fun a => !(less a && greater a)) = above :=
    List.filter_eq_self.mpr fun a ha => by simp [h.above a ha]
  rw [h.eq, List.filter_append, List.filter_append, hbelow, hinside, habove, List.nil_append]

theorem filter_less (h : Window less greater l below inside above) : l.filter less = inside ++ above := by
  have hbelow : below.filter less = [] := List.filter_eq_nil_iff.mpr fun a ha => by simp [h.below a ha]
  have hrest : (inside ++ above).filter less = inside ++ above := List.filter_eq_self.mpr fun a ha =>
    (List.mem_append.mp ha).elim (fun ha => (h.inside a ha).1) fun ha => (h.above a ha).1
  rw [h.eq, List.filter_append, hbelow, hrest, List.nil_append]

/-- What is below an element inside is below the upper border. -/
theorem greater_below (h : Window less greater l below inside above) (hne : inside ≠ [])
    (hgreater : l.Pairwise fun a b => greater b = true → greater a = true) : ∀ a ∈ below, greater a = true := by
  obtain ⟨b, hb⟩ := List.exists_mem_of_ne_nil inside hne
  rw [h.eq] at hgreater
  exact fun a ha => (List.pairwise_append.mp hgreater).2.2 a ha b (by simp [hb]) (h.inside b hb).2

theorem filter_greater (h : Window less greater l below inside above) (hne : inside ≠ [])
    (hgreater : l.Pairwise fun a b => greater b = true → greater a = true) :
    l.filter greater = below ++ inside := by
  have hbelow : below.filter greater = below := List.filter_eq_self.mpr (h.greater_below hne hgreater)
  have hinside : inside.filter greater = inside := List.filter_eq_self.mpr fun a ha => (h.inside a ha).2
  have habove : above.filter greater = [] :=
    List.filter_eq_nil_iff.mpr fun a ha => by simp [h.above a ha]
  rw [h.eq, List.filter_append, List.filter_append, hbelow, hinside, habove, List.append_nil]

theorem map {β : Type} {f : β → α} {l below inside above : List β}
    (h : Window (fun b => less (f b)) (fun b => greater (f b)) l below inside above) :
    Window less greater (l.map f) (below.map f) (inside.map f) (above.map f) where
  eq := by rw [h.eq, List.map_append, List.map_append]
  below := List.forall_mem_map.mpr h.below
  inside := List.forall_mem_map.mpr h.inside
  above := List.forall_mem_map.mpr h.above

end Window

/-- The first element, whatever it is, and those behind it as long as they pass. -/
def onward (p : α → Bool) : List α → List α
  | [] => []
  | a :: l => a :: l.takeWhile p

theorem onward_append {p : α → Bool} {l l' : List α} (hl : ∀ a ∈ l, p a = true) (hl' : ∀ a ∈ l', p a = false)
    (hne : l ≠ []) : onward p (l ++ l') = l := by
  obtain ⟨a, l, rfl⟩ := List.exists_cons_of_ne_nil hne
  have hstop : l'.takeWhile p = [] := by
    cases l' with
    | nil => rfl
    | cons b l' => exact List.takeWhile_cons_of_neg (by simp [hl' b List.mem_cons_self])
  rw [List.cons_append, onward,
    List.takeWhile_append_of_pos fun b hb => hl b (List.mem_cons_of_mem _ hb), hstop, List.append_nil]

theorem onward_map {β : Type} (p : α → Bool) (f : β → α) (l : List β) :
    onward p (l.map f) = (onward (fun b => p (f b)) l).map f := by
  cases l with
  | nil => rfl
  | cons b l => rw [List.map_cons, onward, onward, List.map_cons, List.takeWhile_map]; rfl

/-- A negative limit is none. -/
def limited (limit : Int) (l : List α) : List α := if limit < 0 then l else l.take limit.toNat

theorem limited_map {β : Type} (limit : Int) (f : β → α) (l : List β) :
    limited limit (l.map f) = (limited limit l).map f := by
  rw [limited, limited]
  split
  · rfl
  · exact List.map_take.symm

theorem limited_nil (limit : Int) : limited limit ([] : List α) = [] := by
  simp [limited]

/-- From behind the window a page has an element that is not inside. -/
theorem limited_onward_iff {p : α → Bool} {l l' : List α} (hl : ∀ a ∈ l, p a = true)
    (hl' : ∀ a ∈ l', p a = false) {limit : Int} (hlimit : limit ≠ 0) (offset : Nat) :
    limited limit (onward p ((l ++ l').drop offset)) = limited limit (l.drop offset) ↔
      offset < l.length ∨ (l ++ l').length ≤ offset := by
  by_cases hoffset : offset < l.length
  · have hne : l.drop offset ≠ [] := by simpa using hoffset
    rw [List.drop_append_of_le_length hoffset.le,
      onward_append (fun a ha => hl a (List.mem_of_mem_drop ha)) hl' hne]
    exact iff_of_true rfl (.inl hoffset)
  · have hnil : l.drop offset = [] := List.drop_eq_nil_iff.mpr (not_lt.mp hoffset)
    rw [List.drop_append, hnil, List.nil_append]
    cases hrest : l'.drop (offset - l.length) with
    | nil =>
        refine iff_of_true rfl (.inr ?_)
        rw [List.drop_eq_nil_iff] at hrest
        rw [List.length_append]
        omega
    | cons a rest =>
        have hlength := congrArg List.length hrest
        rw [List.length_drop, List.length_cons] at hlength
        refine iff_of_false ?_ (by rw [List.length_append]; omega)
        rw [onward, limited, limited]
        split
        · simp
        · obtain ⟨n, hn⟩ : ∃ n, limit.toNat = n + 1 := ⟨limit.toNat - 1, by omega⟩
          simp [hn]

def takeRun (cond : Nat → α → Bool) : Nat → List α → List α
  | _, [] => []
  | k, a :: l => if cond k a then a :: takeRun cond (k + 1) l else []

section

variable {cond : Nat → α → Bool}

theorem takeRun_append_drop (k : Nat) (l : List α) :
    takeRun cond k l ++ l.drop (takeRun cond k l).length = l := by
  induction l generalizing k with
  | nil => rfl
  | cons a l ih =>
      rw [takeRun]
      split
      · rw [List.length_cons, List.drop_succ_cons, List.cons_append, ih]
      · rfl

/-- A condition that does not look at the number takes as long as it holds. -/
theorem takeRun_takeWhile {p : α → Bool} (hcond : ∀ k a, cond k a = p a) (k : Nat) (l : List α) :
    takeRun cond k l = l.takeWhile p := by
  induction l generalizing k with
  | nil => rfl
  | cons a l ih => rw [takeRun, hcond, ih, List.takeWhile_cons]

/-- A condition that stops at a number takes no more than that. -/
theorem takeRun_limited {p : α → Bool} {n k : Nat} (hk : k ≤ n)
    (hcond : ∀ j ≤ n, ∀ a, cond j a = (p a && decide (j < n))) (l : List α) :
    takeRun cond k l = (l.takeWhile p).take (n - k) := by
  induction l generalizing k with
  | nil => rw [takeRun, List.takeWhile_nil, List.take_nil]
  | cons a l ih =>
      rw [takeRun, hcond k hk a, List.takeWhile_cons]
      by_cases hlt : k < n
      · rw [decide_eq_true hlt, Bool.and_true, ih hlt, show n - k = n - (k + 1) + 1 by omega]
        split
        · rw [List.take_succ_cons]
        · rw [List.take_nil]
      · rw [if_neg (by simp [hlt]), show n - k = 0 by omega, List.take_zero]

theorem takeRun_counted {n k : Nat} (hk : k ≤ n) (hcond : ∀ j ≤ n, ∀ a, cond j a = decide (j < n)) (l : List α) :
    takeRun cond k l = l.take (n - k) := by
  have hall : l.takeWhile (fun _ => true) = l := List.takeWhile_eq_self_iff.mpr fun _ _ => rfl
  rw [takeRun_limited (p := fun _ => true) hk (fun j hj a => by rw [hcond j hj a, Bool.true_and]), hall]

theorem drop_length_take (n : Nat) (l : List α) : l.drop (l.take n).length = l.drop n := by
  rw [List.length_take, List.drop_eq_drop_min (i := n)]

end

end Traitor.Lib.Windows
