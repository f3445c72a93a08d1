import Mathlib.Data.List.Basic
import Mathlib.Tactic.Common

namespace Traitor.Lib.SkipChain

variable {α : Type}

/-- The first element with the property and its distance from the position in
front of the list, or the length of the list. -/
def reach (p : α → Bool) : List α → Option α × Nat
  | [] => (none, 0)
  | b :: l => if p b then (some b, 1) else ((reach p l).1, (reach p l).2 + 1)

theorem reach_append_none (p : α → Bool) {l : List α} (h : ∀ a ∈ l, p a = false) (l' : List α) :
    reach p (l ++ l') = ((reach p l').1, l.length + (reach p l').2) := by
  induction l with
  | nil => simp
  | cons a l ih =>
      have ha := h a List.mem_cons_self
      rw [List.cons_append, reach, if_neg (by simp [ha]),
        ih (fun b hb => h b (List.mem_cons_of_mem _ hb)), List.length_cons]
      simp only [Prod.mk.injEq, true_and]
      omega

theorem reach_none (p : α → Bool) {l : List α} (h : ∀ a ∈ l, p a = false) :
    reach p l = (none, l.length) := by
  simpa [reach] using reach_append_none p h []

theorem reach_append_some (p : α → Bool) {l : List α} (h : ∀ a ∈ l, p a = false) {b : α}
    (hb : p b = true) (l' : List α) :
    reach p (l ++ b :: l') = (some b, l.length + 1) := by
  rw [reach_append_none p h, reach, if_pos hb]

theorem reach_congr (p : α → Bool) (l : List α) {b : α} (hb : p b = true) (l' l'' : List α) :
    reach p (l ++ b :: l') = reach p (l ++ b :: l'') := by
  induction l with
  | nil => simp [reach, hb]
  | cons a l ih => simp [reach, ih]

theorem reach_eq_none (p : α → Bool) {l : List α} (h : (reach p l).1 = none) :
    ∀ a ∈ l, p a = false := by
  induction l with
  | nil => simp
  | cons a l ih =>
      rw [reach] at h
      by_cases ha : p a = true
      · simp [ha] at h
      · rw [if_neg ha] at h
        exact List.forall_mem_cons.mpr ⟨by simpa using ha, ih h⟩

theorem reach_mem (p : α → Bool) {l : List α} {b : α} (h : (reach p l).1 = some b) :
    b ∈ l ∧ p b = true := by
  induction l with
  | nil => simp [reach] at h
  | cons a l ih =>
      rw [reach] at h
      by_cases ha : p a = true
      · rw [if_pos ha] at h
        obtain rfl := Option.some.inj h
        exact ⟨List.mem_cons_self, ha⟩
      · rw [if_neg ha] at h
        exact ⟨List.mem_cons_of_mem _ (ih h).1, (ih h).2⟩

/-- Either the list has no element with the property, or it splits at the first one. -/
theorem exists_reach (p : α → Bool) (l : List α) :
    (∀ a ∈ l, p a = false) ∨
      ∃ l₁ b l₂, l = l₁ ++ b :: l₂ ∧ p b = true ∧ ∀ a ∈ l₁, p a = false := by
  induction l with
  | nil => exact Or.inl (by simp)
  | cons a l ih =>
      by_cases ha : p a = true
      · exact Or.inr ⟨[], a, l, rfl, ha, by simp⟩
      · have ha' : p a = false := by simpa using ha
        rcases ih with h | ⟨l₁, b, l₂, rfl, hb, h⟩
        · exact Or.inl (List.forall_mem_cons.mpr ⟨ha', h⟩)
        · exact Or.inr ⟨a :: l₁, b, l₂, rfl, hb, List.forall_mem_cons.mpr ⟨ha', h⟩⟩

section

variable (tall : α → Bool) (link : α → Option α × Int)

/-- The link of every tall element leads to the next tall one and spans the way. -/
def Linked : List α → Prop
  | [] => True
  | a :: l => (tall a = true → link a = ((reach tall l).1, ((reach tall l).2 : Int))) ∧ Linked l

def IsLast (l : List α) (u : α) (r : Nat) : Prop :=
  ∃ l₁ l₂, l = l₁ ++ u :: l₂ ∧ tall u = true ∧ (∀ a ∈ l₂, tall a = false) ∧ r = l₁.length

variable {tall link}

theorem linked_append (l : List α) (a : α) (l' : List α) (h : Linked tall link (l ++ a :: l'))
    (ha : tall a = true) : link a = ((reach tall l').1, ((reach tall l').2 : Int)) := by
  induction l with
  | nil => exact h.1 ha
  | cons b l ih => exact ih h.2

theorem linked_drop {l l' : List α} (h : Linked tall link (l ++ l')) : Linked tall link l' := by
  induction l with
  | nil => exact h
  | cons b l ih => exact ih h.2

theorem linked_congr {link' : α → Option α × Int} {l : List α} (h : Linked tall link l)
    (hlink : ∀ a ∈ l, link' a = link a) : Linked tall link' l := by
  induction l with
  | nil => trivial
  | cons a l ih =>
      refine ⟨fun ha => ?_, ih h.2 (fun b hb => hlink b (List.mem_cons_of_mem _ hb))⟩
      rw [hlink a List.mem_cons_self]
      exact h.1 ha

theorem reach_tall_congr {tall' : α → Bool} {l : List α} (htall : ∀ a ∈ l, tall' a = tall a) :
    reach tall' l = reach tall l := by
  induction l with
  | nil => rfl
  | cons a l ih =>
      rw [reach, reach, htall a List.mem_cons_self,
        ih (fun b hb => htall b (List.mem_cons_of_mem _ hb))]

theorem linked_tall_congr {tall' : α → Bool} {l : List α} (h : Linked tall link l)
    (htall : ∀ a ∈ l, tall' a = tall a) : Linked tall' link l := by
  induction l with
  | nil => trivial
  | cons a l ih =>
      have hl : ∀ b ∈ l, tall' b = tall b := fun b hb => htall b (List.mem_cons_of_mem _ hb)
      refine ⟨fun ha => ?_, ih h.2 hl⟩
      rw [reach_tall_congr hl]
      exact h.1 (htall a List.mem_cons_self ▸ ha)

theorem isLast_tall_congr {tall' : α → Bool} {l : List α} {u : α} {r : Nat}
    (h : IsLast tall l u r) (htall : ∀ a ∈ l, tall' a = tall a) : IsLast tall' l u r := by
  obtain ⟨l₁, l₂, rfl, hu, hshort, rfl⟩ := h
  refine ⟨l₁, l₂, rfl, ?_, fun a ha => ?_, rfl⟩
  · rw [htall u (by simp), hu]
  · rw [htall a (by simp [ha]), hshort a ha]

/-- Nothing in front of a tall element depends on what is behind it. -/
theorem linked_replace {link' : α → Option α × Int} {l : List α} {u : α} {l' l'' : List α}
    (hu : tall u = true) (h : Linked tall link (l ++ u :: l'))
    (hlink : ∀ a ∈ l, link' a = link a) (h' : Linked tall link' (u :: l'')) :
    Linked tall link' (l ++ u :: l'') := by
  induction l with
  | nil => exact h'
  | cons a l ih =>
      rw [List.cons_append] at h ⊢
      refine ⟨fun ha => ?_, ih h.2 (fun b hb => hlink b (List.mem_cons_of_mem _ hb))⟩
      rw [hlink a List.mem_cons_self, h.1 ha, reach_congr tall l hu l' l'']

theorem linked_short {l l' : List α} (hl : ∀ a ∈ l, tall a = false) :
    Linked tall link (l ++ l') ↔ Linked tall link l' := by
  induction l with
  | nil => rfl
  | cons a l ih =>
      have ha := hl a List.mem_cons_self
      rw [List.cons_append, Linked, ih (fun b hb => hl b (List.mem_cons_of_mem _ hb))]
      simp [ha]

theorem isLast_link {l l' : List α} {u : α} {r : Nat} (h : IsLast tall l u r)
    (hl : Linked tall link (l ++ l')) :
    link u = ((reach tall l').1, ((l.length - r - 1 + (reach tall l').2 : Nat) : Int)) := by
  obtain ⟨l₁, l₂, rfl, hu, hshort, rfl⟩ := h
  rw [List.append_assoc, List.cons_append] at hl
  rw [linked_append _ _ _ hl hu, reach_append_none tall hshort]
  simp

theorem isLast_lt {l : List α} {u : α} {r : Nat} (h : IsLast tall l u r) : r < l.length := by
  obtain ⟨l₁, l₂, rfl, -, -, rfl⟩ := h
  simp

theorem isLast_mem {l : List α} {u : α} {r : Nat} (h : IsLast tall l u r) : u ∈ l := by
  obtain ⟨l₁, l₂, rfl, -, -, -⟩ := h
  simp

theorem isLast_index {l₁ l₂ : List α} {u : α} {r : Nat} (h : IsLast tall (l₁ ++ u :: l₂) u r)
    (hnodup : (l₁ ++ u :: l₂).Nodup) : r = l₁.length := by
  obtain ⟨m₁, m₂, heq, -, -, rfl⟩ := h
  simp only [List.nodup_append, List.nodup_cons, List.mem_cons] at hnodup
  have hu : u ∉ l₁ := fun hm => hnodup.2.2 u hm u (.inl rfl) rfl
  rw [(List.append_cons_inj_of_notMem hu hnodup.2.1.1).mp heq |>.1]

theorem isLast_end {l : List α} {x u : α} (h : IsLast tall (l ++ [x]) u l.length) : u = x := by
  obtain ⟨l₁, l₂, heq, -, -, hr⟩ := h
  exact (List.cons.inj (List.append_inj heq hr).2).1.symm

/-- The first element is the last tall one when no other one is tall. -/
theorem isLast_head {a : α} {l : List α} {u : α} {r : Nat} (h : IsLast tall (a :: l) u r)
    (hnodup : (a :: l).Nodup) : u = a ↔ ∀ b ∈ l, tall b = false := by
  have hmem := isLast_mem h
  obtain ⟨l₁, l₂, heq, htall, hshort, -⟩ := h
  constructor
  · rintro rfl
    cases l₁ with
    | nil => exact (List.cons.inj heq).2 ▸ hshort
    | cons b l₁ =>
        obtain ⟨rfl, rfl⟩ := List.cons.inj heq
        simp at hnodup
  · intro hl
    apply (List.mem_cons.mp hmem).resolve_right
    intro hu
    rw [hl u hu] at htall
    cases htall

/-- When the list changes behind its front part, only the last tall element of
the front part gets a new link. -/
theorem linked_change {link' : α → Option α × Int} {l m m' : List α} {u : α} {r : Nat}
    (h : Linked tall link (l ++ m)) (hu : IsLast tall l u r) (hnodup : l.Nodup)
    (hother : ∀ a ∈ l, a ≠ u → link' a = link a) (hm : Linked tall link' m')
    (hu' : link' u = ((reach tall m').1, ((l.length - r - 1 + (reach tall m').2 : Nat) : Int))) :
    Linked tall link' (l ++ m') := by
  obtain ⟨l₁, l₂, rfl, hut, hshort, rfl⟩ := hu
  have hne : ∀ a ∈ l₁, a ≠ u := by
    rintro a ha rfl
    exact (List.nodup_append.mp hnodup).2.2 a ha a List.mem_cons_self rfl
  rw [List.append_assoc, List.cons_append] at h ⊢
  refine linked_replace hut h (fun a ha => hother a (by simp [ha]) (hne a ha)) ⟨fun _ => ?_, ?_⟩
  · rw [hu', reach_append_none tall hshort]
    simp
  · exact (linked_short hshort).mpr hm

/-- What is behind the front part keeps its links. -/
theorem linked_behind {link' : α → Option α × Int} {l l' : List α} {u : α} {r : Nat} (h : Linked tall link l')
    (hu : IsLast tall l u r) (hnodup : (l ++ l').Nodup) (hother : ∀ a ∈ l ++ l', a ≠ u → link' a = link a) :
    Linked tall link' l' := by
  have hdisj := (List.nodup_append.mp hnodup).2.2
  refine linked_congr h (fun a ha => hother a (by simp [ha]) ?_)
  rintro rfl
  exact hdisj a (isLast_mem hu) a ha rfl

theorem linked_insert_tall {link' : α → Option α × Int} {l l' : List α} {u x : α} {r : Nat}
    (h : Linked tall link (l ++ l')) (hu : IsLast tall l u r) (hx : tall x = true)
    (hnodup : (l ++ l').Nodup) (hother : ∀ a ∈ l ++ l', a ≠ u → link' a = link a)
    (hu' : link' u = (some x, ((l.length - r : Nat) : Int)))
    (hx' : link' x = ((link u).1, (link u).2 - ((l.length - r - 1 : Nat) : Int))) :
    Linked tall link' (l ++ x :: l') := by
  have hl := (List.nodup_append.mp hnodup).1
  have hrest := linked_behind (linked_drop h) hu hnodup hother
  have hlt := isLast_lt hu
  refine linked_change h hu hl (fun a ha => hother a (by simp [ha])) ⟨fun _ => ?_, hrest⟩ ?_
  · rw [hx', isLast_link hu h]
    simp only [Prod.mk.injEq, true_and]
    omega
  · rw [hu', reach, if_pos hx]
    simp only [Prod.mk.injEq, true_and]
    omega

theorem linked_insert_short {link' : α → Option α × Int} {l l' : List α} {u x : α} {r : Nat}
    (h : Linked tall link (l ++ l')) (hu : IsLast tall l u r) (hx : tall x = false)
    (hnodup : (l ++ l').Nodup) (hother : ∀ a ∈ l ++ l', a ≠ u → link' a = link a)
    (hu' : link' u = ((link u).1, (link u).2 + 1)) :
    Linked tall link' (l ++ x :: l') := by
  have hl := (List.nodup_append.mp hnodup).1
  have hrest := linked_behind (linked_drop h) hu hnodup hother
  refine linked_change h hu hl (fun a ha => hother a (by simp [ha])) ⟨by simp [hx], hrest⟩ ?_
  rw [hu', isLast_link hu h, reach, if_neg (by simp [hx])]
  simp only [Prod.mk.injEq, true_and]
  omega

theorem linked_remove_tall {link' : α → Option α × Int} {l l' : List α} {u x : α} {r : Nat}
    (h : Linked tall link (l ++ x :: l')) (hu : IsLast tall l u r) (hx : tall x = true)
    (hnodup : (l ++ l').Nodup) (hother : ∀ a ∈ l ++ l', a ≠ u → link' a = link a)
    (hu' : link' u = ((link x).1, (link u).2 + ((link x).2 - 1))) :
    Linked tall link' (l ++ l') := by
  have hl := (List.nodup_append.mp hnodup).1
  have hback := linked_drop h
  have hrest := linked_behind hback.2 hu hnodup hother
  apply linked_change h hu hl (fun a ha => hother a (by simp [ha])) hrest
  have hlt := isLast_lt hu
  rw [hu', isLast_link hu h, hback.1 hx, reach, if_pos hx]
  simp only [Prod.mk.injEq, true_and]
  omega

theorem linked_remove_short {link' : α → Option α × Int} {l l' : List α} {u x : α} {r : Nat}
    (h : Linked tall link (l ++ x :: l')) (hu : IsLast tall l u r) (hx : tall x = false)
    (hnodup : (l ++ l').Nodup) (hother : ∀ a ∈ l ++ l', a ≠ u → link' a = link a)
    (hu' : link' u = ((link u).1, (link u).2 - 1)) :
    Linked tall link' (l ++ l') := by
  have hl := (List.nodup_append.mp hnodup).1
  have hback := linked_drop h
  have hrest := linked_behind hback.2 hu hnodup hother
  apply linked_change h hu hl (fun a ha => hother a (by simp [ha])) hrest
  rw [hu', isLast_link hu h, reach, if_neg (by simp [hx])]
  simp only [Prod.mk.injEq, true_and]
  omega

/-- Where the link of the last tall element of the front part leads. -/
theorem isLast_link_eq {l l' : List α} {u x : α} {r : Nat} (h : IsLast tall l u r)
    (hl : Linked tall link (l ++ x :: l')) (hx : x ∉ l') :
    (link u).1 = some x ↔ tall x = true := by
  rw [isLast_link h hl, reach]
  by_cases ht : tall x = true
  · simp [ht]
  · rw [if_neg ht]
    exact ⟨fun he => absurd (reach_mem tall he).1 hx, fun hc => absurd hc ht⟩

end

section

variable (backward : α → Option α) (tail : Option α)

/-- Backward pointers lead through the list from its tail to what is in front of it. -/
def Backed : Option α → List α → Prop
  | prev, [] => tail = prev
  | prev, a :: l => backward a = prev ∧ Backed (some a) l

def lastOr : Option α → List α → Option α
  | prev, [] => prev
  | _, a :: l => lastOr (some a) l

variable {backward tail}

theorem backed_congr {backward' : α → Option α} {prev : Option α} {l : List α}
    (h : Backed backward tail prev l) (hback : ∀ a ∈ l, backward' a = backward a) :
    Backed backward' tail prev l := by
  induction l generalizing prev with
  | nil => exact h
  | cons a l ih =>
      exact ⟨(hback a List.mem_cons_self).trans h.1,
        ih h.2 (fun b hb => hback b (List.mem_cons_of_mem _ hb))⟩

theorem backed_drop {prev : Option α} {l l' : List α} (h : Backed backward tail prev (l ++ l')) :
    Backed backward tail (lastOr prev l) l' := by
  induction l generalizing prev with
  | nil => exact h
  | cons a l ih => exact ih h.2

theorem backed_replace {backward' : α → Option α} {tail' : Option α} {prev : Option α}
    {l m m' : List α} (h : Backed backward tail prev (l ++ m))
    (hback : ∀ a ∈ l, backward' a = backward a) (h' : Backed backward' tail' (lastOr prev l) m') :
    Backed backward' tail' prev (l ++ m') := by
  induction l generalizing prev with
  | nil => exact h'
  | cons a l ih =>
      exact ⟨(hback a List.mem_cons_self).trans h.1,
        ih h.2 (fun b hb => hback b (List.mem_cons_of_mem _ hb)) h'⟩

theorem lastOr_append (prev : Option α) (l : List α) (a : α) : lastOr prev (l ++ [a]) = some a := by
  induction l generalizing prev with
  | nil => rfl
  | cons b l ih => exact ih (some b)

theorem lastOr_none (l : List α) : lastOr none l = l.getLast? := by
  rcases List.eq_nil_or_concat l with rfl | ⟨l, a, rfl⟩
  · rfl
  · rw [List.concat_eq_append, lastOr_append, List.getLast?_concat]

/-- With an element of its own in front of the list, that is the last one if the
list is empty. -/
theorem lastOr_cons {l₁ l : List α} {h u : α} (he : h :: l = l₁ ++ [u]) (hne : h ∉ l) [DecidableEq α] :
    lastOr none l = if u = h then none else some u := by
  cases l₁ with
  | nil =>
      obtain ⟨rfl, rfl⟩ := List.cons.inj he
      simp [lastOr]
  | cons b l₁ =>
      obtain ⟨rfl, rfl⟩ := List.cons.inj he
      have hu : u ≠ h := by
        rintro rfl
        exact hne (by simp)
      rw [if_neg hu]
      exact lastOr_append none l₁ u

end

end Traitor.Lib.SkipChain
