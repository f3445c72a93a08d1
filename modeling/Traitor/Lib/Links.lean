import Mathlib.Data.List.Nodup
import Mathlib.Logic.Function.Basic
import Mathlib.Tactic.Common

namespace Traitor.Lib.Links

variable {ι α : Type}

structure Node (ι α : Type) where
  val : α
  prev : Option ι
  next : Option ι

abbrev Heap (ι α : Type) := ι → Option (Node ι α)

abbrev Cells (ι α : Type) := List (ι × α)

/-- The first address, or what follows where there is none. -/
def firstOr (after : Option ι) : Cells ι α → Option ι
  | [] => after
  | (a, _) :: _ => some a

def lastOr (before : Option ι) : Cells ι α → Option ι
  | [] => before
  | (a, _) :: cells => lastOr (some a) cells

@[simp] theorem firstOr_nil (after : Option ι) : firstOr after ([] : Cells ι α) = after := rfl

@[simp] theorem firstOr_cons (after : Option ι) (c : ι × α) (cells : Cells ι α) :
    firstOr after (c :: cells) = some c.1 := rfl

@[simp] theorem firstOr_append (after : Option ι) (l r : Cells ι α) :
    firstOr after (l ++ r) = firstOr (firstOr after r) l := by
  cases l <;> rfl

@[simp] theorem lastOr_nil (before : Option ι) : lastOr before ([] : Cells ι α) = before := rfl

@[simp] theorem lastOr_cons (before : Option ι) (c : ι × α) (cells : Cells ι α) :
    lastOr before (c :: cells) = lastOr (some c.1) cells := rfl

@[simp] theorem lastOr_append (before : Option ι) (l r : Cells ι α) :
    lastOr before (l ++ r) = lastOr (lastOr before l) r := by
  induction l generalizing before with
  | nil => rfl
  | cons c l ih => exact ih (some c.1)

/-- Every node points to its neighbours, the outer ones to what is around the cells. -/
def Linked (heap : Heap ι α) (before : Option ι) : Cells ι α → Option ι → Prop
  | [], _ => True
  | (a, v) :: cells, after =>
      heap a = some ⟨v, before, firstOr after cells⟩ ∧ Linked heap (some a) cells after

variable {heap heap' : Heap ι α} {before after : Option ι} {cells l r : Cells ι α} {a : ι} {v : α}

theorem linked_append :
    Linked heap before (l ++ r) after ↔
      Linked heap before l (firstOr after r) ∧ Linked heap (lastOr before l) r after := by
  induction l generalizing before with
  | nil => simp [Linked]
  | cons c l ih => simp [Linked, ih, and_assoc]

/-- Only the nodes of the cells matter. -/
theorem Linked.congr (h : Linked heap before cells after) (heq : ∀ c ∈ cells, heap' c.1 = heap c.1) :
    Linked heap' before cells after := by
  induction cells generalizing before with
  | nil => trivial
  | cons c cells ih =>
      refine ⟨(heq c List.mem_cons_self).trans h.1, ih h.2 fun c' hc' => ?_⟩
      exact heq c' (List.mem_cons_of_mem c hc')

/-- The cells can be read off the nodes. -/
theorem Linked.unique (h : Linked heap before cells none) (h' : Linked heap before l none)
    (hfirst : firstOr none cells = firstOr none l) : cells = l := by
  induction cells generalizing before l with
  | nil =>
      cases l with
      | nil => rfl
      | cons c l => simp at hfirst
  | cons c cells ih =>
      cases l with
      | nil => simp at hfirst
      | cons c' l =>
          obtain ⟨a, v⟩ := c
          obtain ⟨a', v'⟩ := c'
          obtain rfl : a = a' := Option.some.inj hfirst
          have hnode := h.1.symm.trans h'.1
          simp only [Option.some.injEq, Node.mk.injEq, true_and] at hnode
          rw [hnode.1, ih h.2 h'.2 hnode.2]

theorem lastOr_mem {b : ι} (h : lastOr none cells = some b) : b ∈ cells.map Prod.fst := by
  rcases List.eq_nil_or_concat' cells with rfl | ⟨l, c, rfl⟩
  · cases h
  · rw [lastOr_append, lastOr_cons, lastOr_nil] at h
    simp [← Option.some.inj h]

theorem exists_lastOr (c : ι × α) (cells : Cells ι α) : ∃ b, lastOr none (c :: cells) = some b := by
  rcases List.eq_nil_or_concat' cells with rfl | ⟨l, c', rfl⟩
  · exact ⟨c.1, rfl⟩
  · exact ⟨c'.1, by simp⟩

@[simp] theorem lastOr_reverse (cells : Cells ι α) : lastOr none cells.reverse = firstOr none cells := by
  cases cells <;> simp

theorem firstOr_mem {b : ι} (h : firstOr none cells = some b) : b ∈ cells.map Prod.fst := by
  cases cells with
  | nil => cases h
  | cons c cells => simp [← Option.some.inj h]

theorem Linked.exists_node (h : Linked heap before cells after) (ha : a ∈ cells.map Prod.fst) :
    ∃ n, heap a = some n := by
  obtain ⟨⟨a, v⟩, hc, rfl⟩ := List.mem_map.mp ha
  obtain ⟨l, r, rfl⟩ := List.append_of_mem hc
  exact ⟨_, (linked_append.mp h).2.1⟩

section

variable [DecidableEq ι]

def change (heap : Heap ι α) (a : Option ι) (f : Node ι α → Node ι α) : Heap ι α :=
  match a with
  | none => heap
  | some a => Function.update heap a ((heap a).map f)

def linkNext (heap : Heap ι α) (a next : Option ι) : Heap ι α := change heap a fun n => { n with next := next }

def linkPrev (heap : Heap ι α) (a prev : Option ι) : Heap ι α := change heap a fun n => { n with prev := prev }

def putVal (heap : Heap ι α) (a : Option ι) (val : α) : Heap ι α := change heap a fun n => { n with val := val }

theorem change_some (heap : Heap ι α) (a : ι) (f : Node ι α → Node ι α) :
    change heap (some a) f a = (heap a).map f := Function.update_self ..

theorem change_of_ne {a : Option ι} {b : ι} (h : a ≠ some b) (f : Node ι α → Node ι α) :
    change heap a f b = heap b := by
  cases a with
  | none => rfl
  | some a => exact Function.update_of_ne (fun hb => h (congrArg some hb.symm)) _ _

theorem exists_change {b : ι} (h : ∃ n, heap b = some n) (a : Option ι) (f : Node ι α → Node ι α) :
    ∃ n, change heap a f b = some n := by
  obtain ⟨n, hn⟩ := h
  by_cases hab : a = some b
  · exact ⟨f n, by rw [hab, change_some, hn, Option.map_some]⟩
  · exact ⟨n, by rw [change_of_ne hab, hn]⟩

theorem linkNext_of_ne {a : Option ι} {b : ι} (h : a ≠ some b) (next : Option ι) :
    linkNext heap a next b = heap b := change_of_ne h _

theorem linkPrev_of_ne {a : Option ι} {b : ι} (h : a ≠ some b) (prev : Option ι) :
    linkPrev heap a prev b = heap b := change_of_ne h _

/-- What follows the cells is changed in their last node alone. -/
theorem Linked.linkNext (h : Linked heap none cells after) (hnodup : (cells.map Prod.fst).Nodup)
    (next : Option ι) : Linked (linkNext heap (lastOr none cells) next) none cells next := by
  rcases List.eq_nil_or_concat' cells with rfl | ⟨l, ⟨a, v⟩, rfl⟩
  · trivial
  · obtain ⟨hl, ha, -⟩ := linked_append.mp h
    rw [List.map_append, List.map_singleton, List.nodup_append] at hnodup
    rw [lastOr_append, lastOr_cons, lastOr_nil]
    refine linked_append.mpr ⟨hl.congr fun c hc => linkNext_of_ne ?_ _, ?_, trivial⟩
    · have hne := hnodup.2.2 c.1 (List.mem_map_of_mem hc) a List.mem_cons_self
      exact fun heq => hne (Option.some.inj heq).symm
    · rw [Links.linkNext, change_some, ha]
      rfl

/-- What is before the cells is changed in their first node alone. -/
theorem Linked.linkPrev (h : Linked heap before cells none) (hnodup : (cells.map Prod.fst).Nodup)
    (prev : Option ι) : Linked (linkPrev heap (firstOr none cells) prev) prev cells none := by
  cases cells with
  | nil => trivial
  | cons c cells =>
      obtain ⟨a, v⟩ := c
      obtain ⟨ha, hcells⟩ := h
      rw [List.map_cons, List.nodup_cons] at hnodup
      refine ⟨?_, hcells.congr fun c hc => linkPrev_of_ne ?_ _⟩
      · rw [firstOr_cons, Links.linkPrev, change_some, ha]
        rfl
      · intro heq
        obtain rfl : a = c.1 := Option.some.inj heq
        have hmem : c.1 ∈ cells.map Prod.fst := List.mem_map_of_mem hc
        exact hnodup.1 hmem

/-- Changing a value leaves the links. -/
theorem Linked.putVal (h : Linked heap before (l ++ (a, v) :: r) after)
    (hnodup : ((l ++ (a, v) :: r).map Prod.fst).Nodup) (val : α) :
    Linked (putVal heap (some a) val) before (l ++ (a, val) :: r) after := by
  obtain ⟨hl, ha, hr⟩ := linked_append.mp h
  rw [List.map_append, List.map_cons, List.nodup_append, List.nodup_cons] at hnodup
  obtain ⟨-, ⟨har, -⟩, hapart⟩ := hnodup
  refine linked_append.mpr ⟨hl.congr fun c hc => change_of_ne (fun heq => ?_) _, ?_,
    hr.congr fun c hc => change_of_ne (fun heq => ?_) _⟩
  · exact hapart c.1 (List.mem_map_of_mem hc) a List.mem_cons_self (Option.some.inj heq).symm
  · rw [Links.putVal, change_some, ha]
    rfl
  · obtain rfl := Option.some.inj heq
    have hmem : c.1 ∈ r.map Prod.fst := List.mem_map_of_mem hc
    exact har hmem

/-- A node is left out when its neighbours point to each other. -/
theorem Linked.remove (h : Linked heap none (l ++ (a, v) :: r) none)
    (hnodup : ((l ++ (a, v) :: r).map Prod.fst).Nodup) :
    Linked (Links.linkPrev (Links.linkNext heap (lastOr none l) (firstOr none r)) (firstOr none r)
      (lastOr none l)) none (l ++ r) none := by
  obtain ⟨hl, -, hr⟩ := linked_append.mp h
  rw [List.map_append, List.map_cons, List.nodup_append, List.nodup_cons] at hnodup
  obtain ⟨hnodupl, ⟨-, hnodupr⟩, hapart⟩ := hnodup
  have hl' := hl.linkNext hnodupl (firstOr none r)
  have hr' : Linked (Links.linkNext heap (lastOr none l) (firstOr none r)) (some a) r none := by
    refine hr.congr fun c hc => linkNext_of_ne (fun hlast => ?_) _
    exact hapart c.1 (lastOr_mem hlast) c.1 (List.mem_cons_of_mem _ (List.mem_map_of_mem hc)) rfl
  refine linked_append.mpr ⟨hl'.congr fun c hc => linkPrev_of_ne (fun hfirst => ?_) _,
    hr'.linkPrev hnodupr (lastOr none l)⟩
  exact hapart c.1 (List.mem_map_of_mem hc) c.1 (List.mem_cons_of_mem _ (firstOr_mem hfirst)) rfl

/-- A node that points to both neighbours is put between them when they point to it. -/
theorem Linked.insert (h : Linked heap none (l ++ r) none) (hnodup : ((l ++ (a, v) :: r).map Prod.fst).Nodup)
    (hnode : heap a = some ⟨v, lastOr none l, firstOr none r⟩) :
    Linked (Links.linkPrev (Links.linkNext heap (lastOr none l) (some a)) (firstOr none r) (some a)) none
      (l ++ (a, v) :: r) none := by
  obtain ⟨hl, hr⟩ := linked_append.mp h
  rw [List.map_append, List.map_cons, List.nodup_append, List.nodup_cons] at hnodup
  obtain ⟨hnodupl, ⟨har, hnodupr⟩, hapart⟩ := hnodup
  have hl' := hl.linkNext hnodupl (some a)
  have hr' : Linked (Links.linkNext heap (lastOr none l) (some a)) (lastOr none l) r none := by
    refine hr.congr fun c hc => linkNext_of_ne (fun hlast => ?_) _
    exact hapart c.1 (lastOr_mem hlast) c.1 (List.mem_cons_of_mem _ (List.mem_map_of_mem hc)) rfl
  refine linked_append.mpr ⟨hl'.congr fun c hc => linkPrev_of_ne (fun hfirst => ?_) _, ?_,
    hr'.linkPrev hnodupr (some a)⟩
  · exact hapart c.1 (List.mem_map_of_mem hc) c.1 (List.mem_cons_of_mem _ (firstOr_mem hfirst)) rfl
  · rw [linkPrev_of_ne (fun hfirst => har (firstOr_mem hfirst)),
      linkNext_of_ne (fun hlast => hapart a (lastOr_mem hlast) a List.mem_cons_self rfl), hnode]

end

end Traitor.Lib.Links
