import Traitor.LinkedList
import Traitor.PagedLists

namespace Traitor.LinkedList

open Lib.Effects Lib.Links
open QuickList (eraseIdx_append_length insertIdx_append_length visits visits_any spared spared_all
  spared_drop spared_keep spared_zero taken taken_all taken_next taken_nil taken_remove taken_stop)

variable {α : Type}

/-- The list is that of the cells: its nodes are linked in both directions, and it knows its ends
and its size. -/
structure Holds (s : LinkedList α) (cells : Cells Nat α) : Prop where
  linked : Linked s.heap none cells none
  first : s.first = firstOr none cells
  last : s.last = lastOr none cells
  size : s.size = cells.length
  nodup : (cells.map Prod.fst).Nodup
  fresh : ∀ c ∈ cells, c.1 < s.fresh

def Represents (s : LinkedList α) (l : List α) : Prop := ∃ cells, Holds s cells ∧ cells.map Prod.snd = l

theorem empty_holds : Holds (empty : LinkedList α) [] :=
  ⟨trivial, rfl, rfl, rfl, List.nodup_nil, fun _ h => absurd h List.not_mem_nil⟩

variable {s t : LinkedList α} {cells l r : Cells Nat α} {a : Nat} {v : α} {n : Node Nat α} {i : Int}

theorem Holds.unique (h : Holds s cells) (h' : Holds s l) : cells = l :=
  h.linked.unique h'.linked (h.first.symm.trans h'.first)

theorem get_runs (s : LinkedList α) : Runs (MonadState.get : Exec α (LinkedList α)) s s s := rfl

theorem deref_runs (h : s.heap a = some n) : Runs (deref (some a)) s n s := by
  refine (get_runs s).bind ?_
  rw [h]
  exact .pure n s

theorem setNext_runs (h : s.heap a = some n) (next : Option Nat) :
    Runs (setNext (some a) next) s ⟨⟩ { s with heap := linkNext s.heap (some a) next } :=
  (deref_runs h).bind (.of_modify _ s)

theorem setPrev_runs (h : s.heap a = some n) (prev : Option Nat) :
    Runs (setPrev (some a) prev) s ⟨⟩ { s with heap := linkPrev s.heap (some a) prev } :=
  (deref_runs h).bind (.of_modify _ s)

/-- A node points to the cells around it. -/
theorem Holds.node (h : Holds s (l ++ (a, v) :: r)) :
    s.heap a = some ⟨v, lastOr none l, firstOr none r⟩ := (linked_append.mp h.linked).2.1

theorem Holds.lt_of_mem (h : Holds s cells) {b : Nat} (hb : b ∈ cells.map Prod.fst) : b < s.fresh := by
  obtain ⟨c, hc, rfl⟩ := List.mem_map.mp hb
  exact h.fresh c hc

theorem Holds.fresh_not_mem (h : Holds s cells) : s.fresh ∉ cells.map Prod.fst :=
  fun hmem => Nat.lt_irrefl _ (h.lt_of_mem hmem)

/-- A new node changes none of the list. -/
theorem Holds.alloc (h : Holds s cells) (n : Node Nat α) :
    Linked (Function.update s.heap s.fresh (some n)) none cells none := by
  refine h.linked.congr fun c hc => Function.update_of_ne ?_ _ _
  exact Nat.ne_of_lt (h.fresh c hc)

theorem Holds.nodup_fresh (h : Holds s (l ++ r)) (v : α) :
    ((l ++ (s.fresh, v) :: r).map Prod.fst).Nodup := by
  rw [List.map_append, List.map_cons, List.nodup_middle, ← List.map_append]
  exact List.nodup_cons.mpr ⟨h.fresh_not_mem, h.nodup⟩

theorem Holds.lt_fresh (h : Holds s (l ++ r)) (v : α) :
    ∀ c ∈ l ++ (s.fresh, v) :: r, c.1 < s.fresh + 1 := by
  intro c hc
  rcases List.mem_append.mp hc with hc | hc
  · exact Nat.lt_succ_of_lt (h.fresh c (List.mem_append_left r hc))
  · rcases List.mem_cons.mp hc with rfl | hc
    · exact Nat.lt_succ_self _
    · exact Nat.lt_succ_of_lt (h.fresh c (List.mem_append_right l hc))

theorem Holds.add (h : Holds s cells) (v : α) :
    ∃ t, Runs (add v) s ⟨⟩ t ∧ Holds t (cells ++ [(s.fresh, v)]) := by
  have hlinked := h.alloc ⟨v, none, none⟩
  have hcells : Holds s (cells ++ []) := by rwa [List.append_nil]
  have hnodup := hcells.nodup_fresh v
  have hfresh := hcells.lt_fresh v
  have hsize : s.size + 1 = (cells ++ [(s.fresh, v)]).length := by simp [h.size]
  have hnode : Function.update s.heap s.fresh (some ⟨v, none, none⟩) s.fresh = some ⟨v, none, none⟩ :=
    Function.update_self ..
  have halloc : Runs (LinkedList.alloc ⟨v, none, none⟩) s (some s.fresh)
      { s with
        heap := Function.update s.heap s.fresh (some ⟨v, none, none⟩)
        fresh := s.fresh + 1 } := rfl
  rcases List.eq_nil_or_concat' cells with rfl | ⟨l, ⟨b, w⟩, rfl⟩
  · have hlast : s.last = none := h.last
    refine ⟨⟨some s.fresh, some s.fresh, s.size + 1,
      Function.update s.heap s.fresh (some ⟨v, none, none⟩), s.fresh + 1⟩,
      halloc.bind ((get_runs _).bind ?_), ⟨hnode, trivial⟩, rfl, rfl, hsize, hnodup, hfresh⟩
    simp only [hlast]
    exact .bind (.of_modify _ _) (.bind (.of_modify _ _) (.of_modify _ _))
  · have hlast : s.last = some b := by simp [h.last]
    have hb : b ≠ s.fresh := Nat.ne_of_lt (h.fresh (b, w) (by simp))
    have hlinks := hlinked.linkNext h.nodup (some s.fresh)
    have hbnode := (linked_append.mp hlinked).2.1
    rw [lastOr_append, lastOr_cons, lastOr_nil] at hlinks
    generalize hmade : Function.update s.heap s.fresh (some ⟨v, none, none⟩) = made at *
    have hnode' : linkNext made (some b) (some s.fresh) s.fresh = some ⟨v, none, none⟩ := by
      rw [linkNext_of_ne fun heq => hb (Option.some.inj heq), hnode]
    have hlinks' : Linked (linkPrev (linkNext made (some b) (some s.fresh)) (some s.fresh) (some b)) none
        (l ++ [(b, w)]) (some s.fresh) := by
      refine hlinks.congr fun c hc => linkPrev_of_ne (fun heq => ?_) _
      exact Nat.lt_irrefl _ (Option.some.inj heq ▸ h.fresh c hc)
    refine ⟨⟨s.first, some s.fresh, s.size + 1,
      linkPrev (linkNext made (some b) (some s.fresh)) (some s.fresh) (some b), s.fresh + 1⟩,
      halloc.bind ((get_runs _).bind ?_), linked_append.mpr ⟨hlinks', ?_, trivial⟩, ?_, ?_, hsize, hnodup,
      hfresh⟩
    · simp only [hlast]
      exact .bind (setNext_runs hbnode _)
        (.bind (setPrev_runs hnode' _) (.bind (.of_modify _ _) (.of_modify _ _)))
    · simp only [linkPrev, change_some, lastOr_append, lastOr_cons, lastOr_nil]
      rw [hnode']
      rfl
    · cases l <;> simp [h.first]
    · simp

theorem setNextOrFirst_runs {prev : Option Nat} (h : ∀ b, prev = some b → ∃ n, s.heap b = some n)
    (n : Option Nat) :
    Runs (setNextOrFirst prev n) s ⟨⟩
      { s with
        first := if prev = none then n else s.first
        heap := linkNext s.heap prev n } := by
  cases prev with
  | none => exact .of_modify _ s
  | some b =>
      obtain ⟨n', hn'⟩ := h b rfl
      exact setNext_runs hn' n

theorem setPrevOrLast_runs {next : Option Nat} (h : ∀ b, next = some b → ∃ n, s.heap b = some n)
    (n : Option Nat) :
    Runs (setPrevOrLast next n) s ⟨⟩
      { s with
        last := if next = none then n else s.last
        heap := linkPrev s.heap next n } := by
  cases next with
  | none => exact .of_modify _ s
  | some b =>
      obtain ⟨n', hn'⟩ := h b rfl
      exact setPrev_runs hn' n

theorem walkNext_runs {before : Option Nat} (h : Linked s.heap before (l ++ r) none) :
    Runs (walkNext l.length (firstOr none (l ++ r))) s (firstOr none r) s := by
  induction l generalizing before with
  | nil => exact .pure _ s
  | cons c l ih => exact (deref_runs h.1).bind (ih h.2)

theorem walkPrev_runs {after : Option Nat} (h : Linked s.heap none (l ++ r) after) :
    Runs (walkPrev r.length (lastOr none (l ++ r))) s (lastOr none l) s := by
  induction r using List.reverseRecOn generalizing after with
  | nil =>
      rw [List.append_nil]
      exact .pure _ s
  | append_singleton r c ih =>
      rw [← List.append_assoc] at h ⊢
      obtain ⟨hinit, hc, -⟩ := linked_append.mp h
      rw [List.length_append, List.length_singleton, walkPrev, lastOr_append, lastOr_cons, lastOr_nil]
      exact (deref_runs hc).bind (ih hinit)

/-- At an index in range the node is found, from whichever end it is looked for. -/
theorem Holds.find (h : Holds s (l ++ (a, v) :: r)) : Runs (find l.length) s (some a) s := by
  have hsize : s.size = l.length + 1 + r.length := by
    rw [h.size, List.length_append, List.length_cons]
    omega
  refine (get_runs s).bind ?_
  rw [if_neg (by omega)]
  split
  · rw [h.first, Int.toNat_natCast]
    exact walkNext_runs h.linked
  · have hindex : (s.size - 1 - l.length).toNat = r.length := by omega
    have hcells : l ++ (a, v) :: r = l ++ [(a, v)] ++ r := by simp
    have hlast : some a = lastOr none (l ++ [(a, v)]) := by simp
    rw [hindex, h.last, hcells, hlast]
    exact walkPrev_runs (hcells ▸ h.linked)

/-- A node that is removed points to nothing. -/
theorem Holds.removeNode (h : Holds s (l ++ (a, v) :: r)) :
    ∃ t, Runs (removeNode (some a)) s ⟨⟩ t ∧ Holds t (l ++ r) ∧ t.heap a = some ⟨v, none, none⟩ ∧
      t.fresh = s.fresh := by
  have hnode := h.node
  have hnodup := h.nodup
  rw [List.map_append, List.map_cons, List.nodup_middle, ← List.map_append, List.nodup_cons] at hnodup
  obtain ⟨hout, hnodup⟩ := hnodup
  have hlast : lastOr none l ≠ some a := fun heq => hout (by simp [lastOr_mem heq])
  have hfirst : firstOr none r ≠ some a := fun heq => hout (by simp [firstOr_mem heq])
  have hremoved := h.linked.remove h.nodup
  obtain ⟨hl, hr⟩ := linked_append.mp h.linked
  have hbefore : ∀ b, lastOr none l = some b → ∃ n, s.heap b = some n := fun b hb =>
    hl.exists_node (lastOr_mem hb)
  generalize hheap : linkNext s.heap (lastOr none l) (firstOr none r) = heap at hremoved
  have hnode' : heap a = some ⟨v, lastOr none l, firstOr none r⟩ := by
    rw [← hheap, linkNext_of_ne hlast, hnode]
  have hafter : ∀ b, firstOr none r = some b → ∃ n, heap b = some n := fun b hb =>
    hheap ▸ exists_change (hr.2.exists_node (firstOr_mem hb)) _ _
  generalize hheap' : linkPrev heap (firstOr none r) (lastOr none l) = heap' at hremoved
  have hnode'' : heap' a = some ⟨v, lastOr none l, firstOr none r⟩ := by
    rw [← hheap', linkPrev_of_ne hfirst, hnode']
  have hcleared : linkPrev heap' (some a) none a = some ⟨v, none, firstOr none r⟩ := by
    rw [linkPrev, change_some, hnode'']
    rfl
  refine ⟨⟨if lastOr none l = none then firstOr none r else s.first,
    if firstOr none r = none then lastOr none l else s.last, s.size + -1,
    linkNext (linkPrev heap' (some a) none) (some a) none, s.fresh⟩, ?_, ?_, ?_, rfl⟩
  · have hbypass := setNextOrFirst_runs hbefore (firstOr none r)
    rw [hheap] at hbypass
    refine (deref_runs hnode).bind (hbypass.bind ((deref_runs hnode').bind ?_))
    have hbypass' := @setPrevOrLast_runs α ⟨if lastOr none l = none then firstOr none r else s.first, s.last,
      s.size, heap, s.fresh⟩ _ hafter (lastOr none l)
    rw [hheap'] at hbypass'
    exact hbypass'.bind (.bind (setPrev_runs hnode'' none) (.bind (setNext_runs hcleared none)
      (.of_modify _ _)))
  · refine ⟨hremoved.congr fun c hc => ?_, ?_, ?_, ?_, hnodup, fun c hc => ?_⟩
    · have hmem : c.1 ∈ (l ++ r).map Prod.fst := List.mem_map_of_mem hc
      have hne : some a ≠ some c.1 := fun heq => hout (Option.some.inj heq ▸ hmem)
      exact (linkNext_of_ne hne _).trans (linkPrev_of_ne hne _)
    · cases l with
      | nil => rfl
      | cons c l =>
          obtain ⟨b, hb⟩ := exists_lastOr c l
          simp [hb, h.first]
    · cases r using List.reverseRecOn with
      | nil => simp
      | append_singleton r c =>
          obtain ⟨b, hb⟩ : ∃ b, firstOr none (r ++ [c]) = some b := by cases r <;> simp
          simp only [hb, h.last]
          simp
    · have hsize := h.size
      rw [List.length_append, List.length_cons] at hsize
      simp only [List.length_append]
      omega
    · refine h.fresh c ?_
      rcases List.mem_append.mp hc with hc | hc
      · exact List.mem_append_left _ hc
      · exact List.mem_append_right _ (List.mem_cons_of_mem _ hc)
  · have hgone : linkNext (linkPrev heap' (some a) none) (some a) none a = some ⟨v, none, none⟩ := by
      rw [linkNext, change_some, hcleared]
      rfl
    exact hgone

theorem Holds.insertBefore {p : Nat} {w : α} (h : Holds s (l ++ (p, w) :: r)) (v : α) :
    ∃ t, Runs (insertBefore l.length v) s ⟨⟩ t ∧ Holds t (l ++ (s.fresh, v) :: (p, w) :: r) := by
  have hnode := h.node
  have hmade := h.alloc ⟨v, lastOr none l, some p⟩
  have hnodup := h.nodup_fresh v
  have hfresh : Function.update s.heap s.fresh (some ⟨v, lastOr none l, some p⟩) s.fresh =
      some ⟨v, lastOr none l, some p⟩ := Function.update_self ..
  have hinserted := hmade.insert hnodup hfresh
  have halloc : Runs (LinkedList.alloc ⟨v, lastOr none l, some p⟩) s (some s.fresh)
      { s with
        heap := Function.update s.heap s.fresh (some ⟨v, lastOr none l, some p⟩)
        fresh := s.fresh + 1 } := rfl
  obtain ⟨hl, hr⟩ := linked_append.mp hmade
  generalize Function.update s.heap s.fresh (some ⟨v, lastOr none l, some p⟩) = heap at *
  have hbefore : ∀ b, lastOr none l = some b → ∃ n, heap b = some n := fun b hb =>
    hl.exists_node (lastOr_mem hb)
  have hafter : ∃ n, linkNext heap (lastOr none l) (some s.fresh) p = some n :=
    exists_change ⟨_, hr.1⟩ _ _
  obtain ⟨n, hn⟩ := hafter
  refine ⟨⟨if lastOr none l = none then some s.fresh else s.first, s.last, s.size + 1,
    linkPrev (linkNext heap (lastOr none l) (some s.fresh)) (some p) (some s.fresh), s.fresh + 1⟩, ?_,
    hinserted, ?_, ?_, ?_, hnodup, h.lt_fresh v⟩
  · have hbypass := @setNextOrFirst_runs α ⟨s.first, s.last, s.size, heap, s.fresh + 1⟩ _ hbefore
      (some s.fresh)
    refine h.find.bind ((deref_runs hnode).bind (halloc.bind (hbypass.bind ?_)))
    exact (setPrev_runs hn (some s.fresh)).bind (.of_modify _ _)
  · cases l with
    | nil => rfl
    | cons c l =>
        obtain ⟨b, hb⟩ := exists_lastOr c l
        simp [hb, h.first]
  · simp [h.last]
  · simp [h.size]
    omega

/-- The way a loop goes through the cells that are left, after those that it is through with. -/
structure Walk (next : Node Nat α → Option Nat) (whole : Cells Nat α → Cells Nat α → Cells Nat α)
    (keep : Cells Nat α → Nat × α → Cells Nat α) : Prop where
  keep : ∀ done c rest, whole done (c :: rest) = whole (keep done c) rest
  node : ∀ {s : LinkedList α} {done a v rest}, Holds s (whole done ((a, v) :: rest)) →
    ∃ n, s.heap a = some n ∧ n.val = v ∧ next n = firstOr none rest
  remove : ∀ {s : LinkedList α} {done a v rest}, Holds s (whole done ((a, v) :: rest)) →
    ∃ t, Runs (removeNode (some a)) s ⟨⟩ t ∧ Holds t (whole done rest)

theorem walk_forward : @Walk α Node.next (· ++ ·) fun done c => done ++ [c] where
  keep := fun done c rest => (List.append_cons done c rest)
  node := fun h => ⟨_, h.node, rfl, rfl⟩
  remove := fun h => by
    obtain ⟨t, hrun, ht, -⟩ := h.removeNode
    exact ⟨t, hrun, ht⟩

theorem walk_backward : @Walk α Node.prev (fun done rest => rest.reverse ++ done) fun done c => c :: done where
  keep := fun done c rest => by simp
  node := fun h => by
    rw [List.reverse_cons, List.append_assoc, List.singleton_append] at h
    exact ⟨_, h.node, rfl, lastOr_reverse _⟩
  remove := fun h => by
    rw [List.reverse_cons, List.append_assoc, List.singleton_append] at h
    obtain ⟨t, hrun, ht, -⟩ := h.removeNode
    exact ⟨t, hrun, ht⟩

variable {expected : α → Bool} {count : Int} {removed : Nat}

/-- Unless it stops at once, a loop takes what a pass over the elements takes. -/
theorem Walk.removeLoop {next : Node Nat α → Option Nat} {whole : Cells Nat α → Cells Nat α → Cells Nat α}
    {keep : Cells Nat α → Nat × α → Cells Nat α} (hw : Walk next whole keep) {done rest : Cells Nat α}
    (h : Holds s (whole done rest)) {fuel : Nat} (hfuel : rest.length ≤ fuel)
    (hgoes : ∀ v, (rest.map Prod.snd).head? = some v → expected v = false → (removed : Int) ≠ count) :
    ∃ t kept, Runs (removeLoop next expected count fuel (firstOr none rest) removed) s
        (removed + taken expected count removed (rest.map Prod.snd)) t ∧
      Holds t (whole done kept) ∧
      kept.map Prod.snd =
        spared expected (taken expected count removed (rest.map Prod.snd)) (rest.map Prod.snd) := by
  induction rest generalizing s done fuel removed with
  | nil =>
      refine ⟨s, [], ?_, h, by simp⟩
      rw [List.map_nil, taken_nil, Nat.add_zero]
      cases fuel <;> exact .pure removed s
  | cons c rest ih =>
      obtain ⟨a, v⟩ := c
      obtain ⟨fuel, rfl⟩ := Nat.exists_eq_add_of_le' (Nat.le_trans (Nat.le_add_left 1 _) hfuel)
      obtain ⟨n, hnode, rfl, hnext⟩ := hw.node h
      have hrest : rest.length ≤ fuel := Nat.le_of_succ_le_succ hfuel
      rw [firstOr_cons, List.map_cons]
      by_cases hv : expected n.val = true
      · obtain ⟨u, hrun, hu⟩ := hw.remove h
        by_cases hc : (removed + 1 : Int) = count
        · refine ⟨u, rest, (deref_runs hnode).bind ?_, hu, ?_⟩
          · rw [if_pos hv, taken_stop hv hc]
            refine hrun.bind ?_
            rw [if_pos hc]
            exact .pure _ u
          · rw [taken_stop hv hc, spared_drop hv, spared_zero]
        · obtain ⟨t, kept, hloop, ht, hkept⟩ := ih hu hrest fun _ _ _ => by exact_mod_cast hc
          refine ⟨t, kept, (deref_runs hnode).bind ?_, ht, ?_⟩
          · rw [if_pos hv, taken_remove hv hc, ← Nat.add_assoc]
            refine hrun.bind ?_
            rw [if_neg hc, hnext]
            exact hloop
          · rw [taken_remove hv hc, Nat.add_comm 1, spared_drop hv, hkept]
      · rw [Bool.not_eq_true] at hv
        have hne := hgoes n.val rfl hv
        rw [hw.keep] at h
        obtain ⟨t, kept, hloop, ht, hkept⟩ := ih h hrest fun _ _ _ => hne
        refine ⟨t, (a, n.val) :: kept, (deref_runs hnode).bind ?_, ?_, ?_⟩
        · rw [hv, if_neg Bool.false_ne_true, if_neg hne, taken_next hv, hnext]
          exact hloop
        · rw [hw.keep]
          exact ht
        · rw [taken_next hv, spared_keep hv, List.map_cons, hkept]

/-- What is left when the first `count` expected elements go, or all of them for a count that is
not positive. -/
def without (expected : α → Bool) (count : Int) (l : List α) : List α :=
  spared expected (taken expected count 0 l) l

/-- Where none is to go, a first element that is kept ends the loop. -/
theorem Walk.stays {next : Node Nat α → Option Nat} {whole : Cells Nat α → Cells Nat α → Cells Nat α}
    {keep : Cells Nat α → Nat × α → Cells Nat α} (hw : Walk next whole keep) {done rest : Cells Nat α}
    (h : Holds s (whole done rest)) {fuel : Nat} (hfuel : rest.length ≤ fuel)
    (hfirst : ∃ v, (rest.map Prod.snd).head? = some v ∧ expected v = false) :
    Runs (LinkedList.removeLoop next expected 0 fuel (firstOr none rest) 0) s 0 s := by
  obtain ⟨v, hhead, hv⟩ := hfirst
  cases rest with
  | nil => cases hhead
  | cons c rest =>
      obtain ⟨a, w⟩ := c
      obtain rfl : w = v := Option.some.inj hhead
      obtain ⟨fuel, rfl⟩ := Nat.exists_eq_add_of_le' (Nat.le_trans (Nat.le_add_left 1 _) hfuel)
      obtain ⟨n, hnode, rfl, -⟩ := hw.node h
      refine (deref_runs hnode).bind ?_
      rw [hv, if_neg Bool.false_ne_true, if_pos Int.natCast_zero]
      exact .pure 0 s

/-- A loop that may stop at once takes the same, unless an element is kept before one that is
expected. -/
theorem Walk.removes {next : Node Nat α → Option Nat} {whole : Cells Nat α → Cells Nat α → Cells Nat α}
    {keep : Cells Nat α → Nat × α → Cells Nat α} (hw : Walk next whole keep) {rest : Cells Nat α}
    (h : Holds s (whole [] rest)) {fuel : Nat} (hfuel : rest.length ≤ fuel)
    (hcount : count = 0 → (∃ v, (rest.map Prod.snd).head? = some v ∧ expected v = false) →
      (rest.map Prod.snd).countP expected = 0) :
    ∃ t kept, Runs (LinkedList.removeLoop next expected count fuel (firstOr none rest) 0) s
        (taken expected count 0 (rest.map Prod.snd)) t ∧
      Holds t (whole [] kept) ∧ kept.map Prod.snd = without expected count (rest.map Prod.snd) := by
  by_cases hstays : count = 0 ∧ ∃ v, (rest.map Prod.snd).head? = some v ∧ expected v = false
  · obtain ⟨rfl, hfirst⟩ := hstays
    have hnone := hcount rfl hfirst
    refine ⟨s, rest, ?_, h, ?_⟩
    · rw [taken_all, hnone]
      exact hw.stays h hfuel hfirst
    · rw [without, taken_all, hnone, spared_zero]
  · have hgoes : ∀ v, (rest.map Prod.snd).head? = some v → expected v = false → ((0 : Nat) : Int) ≠ count :=
      fun v hhead hv hc => hstays ⟨hc.symm, v, hhead, hv⟩
    obtain ⟨t, kept, hrun, ht, hkept⟩ := hw.removeLoop h hfuel hgoes
    rw [Nat.zero_add] at hrun
    exact ⟨t, kept, hrun, ht, hkept⟩

/-- No count stops the loop that takes all of them. -/
theorem removeAllLoop_eq (expected : α → Bool) (fuel : Nat) (n : Option Nat) (removed : Nat) :
    removeAllLoop expected fuel n removed = removeLoop Node.next expected (-1) fuel n removed := by
  induction fuel generalizing n removed with
  | zero => cases n <;> rfl
  | succ fuel ih =>
      cases n with
      | none => rfl
      | some n =>
          rw [removeAllLoop, removeLoop]
          congr 1
          funext node
          have hgoes (k : Nat) : (k : Int) ≠ -1 := by omega
          have hgoes' : (removed + 1 : Int) ≠ -1 := by omega
          rw [ih, ih, if_neg (hgoes removed), if_neg hgoes']

theorem Holds.length_le (h : Holds s cells) : cells.length ≤ s.fresh := by
  have hsub : cells.map Prod.fst ⊆ List.range s.fresh := fun b hb => List.mem_range.mpr (h.lt_of_mem hb)
  have hle := h.nodup.length_le_of_subset hsub
  rwa [List.length_map, List.length_range] at hle

theorem forEachLoop_runs (consumer : Nat → α → Bool) {before : Option Nat}
    (h : Linked s.heap before cells none) {fuel : Nat} (hfuel : cells.length ≤ fuel) (i : Nat) :
    Runs (forEachLoop consumer fuel (firstOr none cells) i) s (visits consumer i (cells.map Prod.snd)) s := by
  induction cells generalizing before fuel i with
  | nil => cases fuel <;> exact .pure _ s
  | cons c cells ih =>
      obtain ⟨fuel, rfl⟩ := Nat.exists_eq_add_of_le' (Nat.le_trans (Nat.le_add_left 1 _) hfuel)
      refine (deref_runs h.1).bind ?_
      rw [List.map_cons, visits]
      split
      · exact (ih h.2 (Nat.le_of_succ_le_succ hfuel) (i + 1)).bind (.pure _ s)
      · exact .pure _ s

theorem Holds.forEach (h : Holds s cells) (consumer : Nat → α → Bool) :
    Runs (forEach consumer) s (visits consumer 0 (cells.map Prod.snd)) s := by
  refine (get_runs s).bind ?_
  rw [h.first]
  exact forEachLoop_runs consumer h.linked h.length_le 0

def Stops {β : Type} (m : Exec α β) (s : LinkedList α) : Prop := m s = .error () s

theorem Stops.value {β : Type} {m : Exec α β} (h : Stops m s) : value m s = none := by
  rw [Lib.Effects.value, h]

theorem Stops.final {β : Type} {m : Exec α β} (h : Stops m s) : final m s = s := by
  rw [Lib.Effects.final, h]

theorem Stops.bind {β γ : Type} {m : Exec α β} (h : Stops m s) (f : β → Exec α γ) : Stops (m >>= f) s := by
  rw [Stops] at h ⊢
  simp only [Bind.bind, EStateM.bind, h]

theorem stops_of_runs {β γ : Type} {m : Exec α β} {f : β → Exec α γ} {b : β} (h : Runs m s b s)
    (hf : Stops (f b) s) : Stops (m >>= f) s := by
  rw [Runs] at h
  rw [Stops] at hf ⊢
  simp only [Bind.bind, EStateM.bind, h, hf]

theorem find_stops {index : Int} (h : index < 0 ∨ s.size ≤ index) : Stops (find index) s := by
  refine stops_of_runs (get_runs s) ?_
  rw [if_pos h]
  rfl

/-- From the front on the values go where they belong. -/
theorem rangeLoop_front {stop : Int} {before : Option Nat} (h : Linked s.heap before cells none) {fuel : Nat}
    (hfuel : cells.length ≤ fuel) {done : List α} {room : Nat} (hroom : room ≤ cells.length)
    (hstop : stop = done.length + room) :
    Runs (rangeLoop 0 stop fuel (firstOr none cells) done.length
        (done.map some ++ List.replicate room none)) s
      ((done ++ (cells.map Prod.snd).take room).map some) s := by
  induction cells generalizing before fuel done room with
  | nil =>
      obtain rfl := Nat.le_zero.mp hroom
      have hdone : (done ++ (([] : Cells Nat α).map Prod.snd).take 0).map some =
          done.map some ++ List.replicate 0 none := by simp
      rw [hdone]
      cases fuel <;> exact .pure _ s
  | cons c cells ih =>
      obtain ⟨fuel, rfl⟩ := Nat.exists_eq_add_of_le' (Nat.le_trans (Nat.le_add_left 1 _) hfuel)
      refine (deref_runs h.1).bind ?_
      cases room with
      | zero =>
          rw [if_neg (by omega), if_pos (by omega)]
          simpa using Runs.pure _ s
      | succ room =>
          have hset : (done.map some ++ List.replicate (room + 1) none).set done.length (some c.2) =
              (done ++ [c.2]).map some ++ List.replicate room none := by
            simp [List.replicate_succ]
          have hstop' : stop = (done ++ [c.2]).length + room := by
            rw [hstop, List.length_append, List.length_singleton]
            omega
          have hrest := ih h.2 (Nat.le_of_succ_le_succ hfuel) (Nat.le_of_succ_le_succ hroom) hstop'
          rw [if_pos (by omega), if_pos (by simp), hset]
          simpa using hrest

/-- Where nothing is asked for, nothing is put anywhere. -/
theorem rangeLoop_nothing {start : Int} {before : Option Nat} (h : Linked s.heap before cells none) {fuel : Nat}
    (hfuel : cells.length ≤ fuel) (i : Nat) (slice : List (Option α)) :
    Runs (rangeLoop start start fuel (firstOr none cells) i slice) s slice s := by
  induction cells generalizing before fuel i with
  | nil => cases fuel <;> exact .pure slice s
  | cons c cells ih =>
      obtain ⟨fuel, rfl⟩ := Nat.exists_eq_add_of_le' (Nat.le_trans (Nat.le_add_left 1 _) hfuel)
      refine (deref_runs h.1).bind ?_
      rw [if_neg (by omega)]
      split
      · exact .pure slice s
      · exact ih h.2 (Nat.le_of_succ_le_succ hfuel) (i + 1)

/-- A start behind the first element leaves too little room at the end. -/
theorem rangeLoop_stops {start stop : Int} {before : Option Nat} (h : Linked s.heap before cells none)
    {fuel : Nat} {i : Nat} {slice : List (Option α)} (hslice : slice.length = stop - start) (hstart : 0 < start)
    (hlt : start < stop) (hstop : stop ≤ i + cells.length) (hi : i ≤ slice.length ∨ i ≤ start) :
    Stops (rangeLoop start stop fuel (firstOr none cells) i slice) s := by
  induction cells generalizing before fuel i slice with
  | nil =>
      simp only [List.length_nil] at hstop
      omega
  | cons c cells ih =>
      cases fuel with
      | zero => rfl
      | succ fuel =>
          refine stops_of_runs (deref_runs h.1) ?_
          rw [List.length_cons] at hstop
          by_cases hin : start ≤ i ∧ i < stop
          · rw [if_pos hin]
            split
            · exact ih h.2 (by simpa using hslice) (by omega) (by simp; omega)
            · rfl
          · rw [if_neg hin, if_neg (by omega)]
            exact ih h.2 hslice (by omega) (by omega)

inductive Op (α : Type)
  | add (val : α)
  | get (index : Int)
  | set (index : Int) (val : α)
  | insert (index : Int) (val : α)
  | remove (index : Int)
  | removeLast
  | removeAllByVal (expected : α → Bool)
  | reverseRemoveByVal (expected : α → Bool) (count : Int)
  | removeByVal (expected : α → Bool) (count : Int)
  | len
  | forEach (consumer : Nat → α → Bool)
  | contains (expected : α → Bool)
  | range (start stop : Int)

inductive Ret (α : Type)
  | unit
  | val (v : α)
  | last (v : Option α)
  | removed (n : Nat)
  | len (n : Int)
  | visited (l : List α)
  | found (b : Bool)
  | slice (l : List (Option α))
deriving DecidableEq

def step : Op α → Exec α (Ret α)
  | .add v => (fun _ => .unit) <$> add v
  | .get i => .val <$> get i
  | .set i v => (fun _ => .unit) <$> set i v
  | .insert i v => (fun _ => .unit) <$> insert i v
  | .remove i => .val <$> remove i
  | .removeLast => .last <$> removeLast
  | .removeAllByVal expected => .removed <$> removeAllByVal expected
  | .reverseRemoveByVal expected count => .removed <$> reverseRemoveByVal expected count
  | .removeByVal expected count => .removed <$> removeByVal expected count
  | .len => .len <$> len
  | .forEach consumer => .visited <$> forEach consumer
  | .contains expected => .found <$> contains expected
  | .range start stop => .slice <$> range start stop

def elem (l : List α) (index : Int) : Option α := if index < 0 then none else l[index.toNat]?

def listStep (l : List α) : Op α → Option (List α × Ret α)
  | .add v => some (l ++ [v], .unit)
  | .get i => (elem l i).map (l, .val ·)
  | .set i v => (elem l i).map fun _ => (l.set i.toNat v, .unit)
  | .insert i v => if 0 ≤ i ∧ i ≤ l.length then some (l.insertIdx i.toNat v, .unit) else none
  | .remove i => (elem l i).map (l.eraseIdx i.toNat, .val ·)
  | .removeLast => some (l.dropLast, .last l.getLast?)
  | .removeAllByVal expected => some (l.filter (!expected ·), .removed (l.countP expected))
  | .reverseRemoveByVal expected count =>
      some ((without expected count l.reverse).reverse, .removed (taken expected count 0 l))
  | .removeByVal expected count => some (without expected count l, .removed (taken expected count 0 l))
  | .len => some (l, .len l.length)
  | .forEach consumer => some (l, .visited (visits consumer 0 l))
  | .contains expected => some (l, .found (l.any expected))
  | .range start stop =>
      if 0 ≤ start ∧ start < l.length ∧ start ≤ stop ∧ stop ≤ l.length then
        some (l, .slice (((l.drop start.toNat).take (stop - start).toNat).map some))
      else none

/-- After a panic the list is as it was. -/
def outcome (l : List α) (op : Op α) : Option (Ret α) × List α :=
  match listStep l op with
  | none => (none, l)
  | some (l, ret) => (some ret, l)

/-- Before and after every operation the list represents the plain list, and both return the same
or panic. -/
def Refines : LinkedList α → List α → List (Op α) → Prop
  | s, l, [] => Represents s l
  | s, l, op :: ops =>
      Represents s l ∧ value (step op) s = (outcome l op).1 ∧
        Refines (final (step op) s) (outcome l op).2 ops

/-- An element is inserted behind the last one, a range neither starts at the first element nor is
empty, or no element is to go where the one that is looked at first may stay. -/
def Op.Faulty (l : List α) : Op α → Prop
  | .insert i _ => i = l.length
  | .range start stop => 0 < start ∧ start < stop ∧ stop ≤ l.length
  | .removeByVal expected count =>
      count = 0 ∧ (∃ v, l.head? = some v ∧ expected v = false) ∧ 0 < l.countP expected
  | .reverseRemoveByVal expected count =>
      count = 0 ∧ (∃ v, l.getLast? = some v ∧ expected v = false) ∧ 0 < l.countP expected
  | _ => False

def Sound : List α → List (Op α) → Prop
  | _, [] => True
  | l, op :: ops => ¬ op.Faulty l ∧ Sound (outcome l op).2 ops

theorem runs_map {β γ : Type} {m : Exec α β} {b : β} (h : Runs m s b t) (f : β → γ) :
    Runs (f <$> m) s (f b) t := by
  rw [Runs] at h ⊢
  simp only [Functor.map, EStateM.map, h]

theorem Stops.map {β γ : Type} {m : Exec α β} (h : Stops m s) (f : β → γ) : Stops (f <$> m) s := by
  rw [Stops] at h ⊢
  simp only [Functor.map, EStateM.map, h]

theorem elem_some {i : Int} (h : elem (cells.map Prod.snd) i = some v) :
    ∃ l a r, cells = l ++ (a, v) :: r ∧ i = (l.length : Int) := by
  rw [elem] at h
  split at h
  · cases h
  · rw [List.getElem?_map, Option.map_eq_some_iff] at h
    obtain ⟨⟨a, v⟩, hc, rfl⟩ := h
    obtain ⟨hi, hc⟩ := List.getElem?_eq_some_iff.mp hc
    refine ⟨cells.take i.toNat, a, cells.drop (i.toNat + 1), ?_, ?_⟩
    · rw [← hc, List.getElem_cons_drop, List.take_append_drop]
    · rw [List.length_take]
      omega

theorem elem_none {l : List α} {i : Int} (h : elem l i = none) : i < 0 ∨ l.length ≤ i := by
  rw [elem] at h
  split at h
  · exact .inl ‹_›
  · rw [List.getElem?_eq_none_iff] at h
    omega

def Meets (s : LinkedList α) (l : List α) (op : Op α) : Prop :=
  value (step op) s = (outcome l op).1 ∧ Represents (final (step op) s) (outcome l op).2

theorem meets_of_runs {op : Op α} {ret : Ret α} {l l' : List α} (h : Runs (step op) s ret t)
    (hl : listStep l op = some (l', ret)) (ht : Represents t l') : Meets s l op := by
  rw [Meets, outcome, hl, h.value, h.final]
  exact ⟨rfl, ht⟩

theorem meets_of_stops {op : Op α} {l : List α} (h : Stops (step op) s) (hl : listStep l op = none)
    (hs : Represents s l) : Meets s l op := by
  rw [Meets, outcome, hl, h.value, h.final]
  exact ⟨rfl, hs⟩

theorem Holds.represents (h : Holds s cells) : Represents s (cells.map Prod.snd) := ⟨cells, h, rfl⟩

theorem insert_eq (s : LinkedList α) (i : Int) (w : α) :
    insert i w s =
      (if i = s.size then (do add w; insertBefore i w) else insertBefore i w : Exec α PUnit) s := rfl

theorem represents_unique {l l' : List α} (h : Represents s l) (h' : Represents s l') : l = l' := by
  obtain ⟨cells, hcells, rfl⟩ := h
  obtain ⟨cells', hcells', rfl⟩ := h'
  rw [hcells.unique hcells']

theorem Refines.represents {l : List α} {ops : List (Op α)} (h : Refines s l ops) : Represents s l := by
  cases ops with
  | nil => exact h
  | cons op ops => exact h.1

section

variable (h : Holds s cells)

include h

theorem Holds.meets_add (v : α) : Meets s (cells.map Prod.snd) (.add v) := by
  obtain ⟨t, hrun, ht⟩ := h.add v
  exact meets_of_runs (runs_map hrun _) rfl ⟨_, ht, by simp⟩

theorem Holds.out_of_range {i : Int} (hi : elem (cells.map Prod.snd) i = none) : Stops (LinkedList.find i) s := by
  refine find_stops ?_
  rw [h.size]
  simpa using elem_none hi

theorem Holds.meets_get (i : Int) : Meets s (cells.map Prod.snd) (.get i) := by
  cases hv : elem (cells.map Prod.snd) i with
  | none =>
      exact meets_of_stops (((h.out_of_range hv).bind _).map _) (by rw [listStep, hv]; rfl) h.represents
  | some v =>
      obtain ⟨l, a, r, rfl, rfl⟩ := elem_some hv
      have hrun : Runs (LinkedList.get l.length) s v s := h.find.bind ((deref_runs h.node).bind (.pure v s))
      exact meets_of_runs (runs_map hrun _) (by rw [listStep, hv]; rfl) h.represents

theorem Holds.meets_set (i : Int) (w : α) : Meets s (cells.map Prod.snd) (.set i w) := by
  cases hv : elem (cells.map Prod.snd) i with
  | none =>
      exact meets_of_stops (((h.out_of_range hv).bind _).map _) (by rw [listStep, hv]; rfl) h.represents
  | some v =>
      obtain ⟨l, a, r, rfl, rfl⟩ := elem_some hv
      have hrun : Runs (LinkedList.set l.length w) s ⟨⟩ { s with heap := putVal s.heap (some a) w } :=
        h.find.bind ((deref_runs h.node).bind (.of_modify _ s))
      refine meets_of_runs (runs_map hrun _) (by rw [listStep, hv]; rfl) ⟨l ++ (a, w) :: r, ?_, ?_⟩
      · refine ⟨h.linked.putVal h.nodup w, ?_, ?_, ?_, ?_, ?_⟩
        · simp [h.first]
        · simp [h.last]
        · simp [h.size]
        · simpa using h.nodup
        · intro c hc
          have hmem : c.1 ∈ (l ++ (a, w) :: r).map Prod.fst := List.mem_map_of_mem hc
          exact h.lt_of_mem (by simpa using hmem)
      · simp

theorem Holds.meets_insert (hi : i ≠ (cells.map Prod.snd).length) (w : α) :
    Meets s (cells.map Prod.snd) (.insert i w) := by
  have hsize : i ≠ s.size := by simpa [h.size] using hi
  have hbelow := insert_eq s i w
  rw [if_neg hsize] at hbelow
  cases hv : elem (cells.map Prod.snd) i with
  | none =>
      have hstops : Stops (LinkedList.insert i w) s := by
        rw [Stops, hbelow]
        exact (h.out_of_range hv).bind _
      have hout := elem_none hv
      exact meets_of_stops (hstops.map _) (by rw [listStep, if_neg (by omega)]) h.represents
  | some v =>
      obtain ⟨l, a, r, rfl, rfl⟩ := elem_some hv
      obtain ⟨t, hrun, ht⟩ := h.insertBefore w
      have hrun' : Runs (LinkedList.insert l.length w) s ⟨⟩ t := by
        rw [Runs, hbelow]
        exact hrun
      refine meets_of_runs (runs_map hrun' _) ?_ ⟨_, ht, rfl⟩
      have hinsert := insertIdx_append_length (l.map Prod.snd) (((a, v) :: r).map Prod.snd) w
      rw [List.length_map, ← List.map_append] at hinsert
      rw [listStep, if_pos (by simp; omega), Int.toNat_natCast, hinsert]
      simp

theorem Holds.meets_remove (i : Int) : Meets s (cells.map Prod.snd) (.remove i) := by
  cases hv : elem (cells.map Prod.snd) i with
  | none =>
      exact meets_of_stops (((h.out_of_range hv).bind _).map _) (by rw [listStep, hv]; rfl) h.represents
  | some v =>
      obtain ⟨l, a, r, rfl, rfl⟩ := elem_some hv
      obtain ⟨t, hrun, ht, hnode, -⟩ := h.removeNode
      have hrun' : Runs (LinkedList.remove l.length) s v t :=
        h.find.bind (hrun.bind ((deref_runs hnode).bind (.pure v t)))
      refine meets_of_runs (runs_map hrun' _) ?_ ⟨_, ht, rfl⟩
      have herase := eraseIdx_append_length (l.map Prod.snd) (r.map Prod.snd) v
      rw [List.length_map, ← List.map_cons (f := Prod.snd) (a := (a, v)), ← List.map_append,
        ← List.map_append] at herase
      rw [listStep, hv, Int.toNat_natCast, herase]
      rfl

theorem Holds.meets_removeLast : Meets s (cells.map Prod.snd) .removeLast := by
  rcases List.eq_nil_or_concat' cells with rfl | ⟨l, ⟨a, v⟩, rfl⟩
  · have hrun : Runs LinkedList.removeLast s none s := by
      refine (get_runs s).bind ?_
      rw [h.last]
      exact .pure none s
    exact meets_of_runs (runs_map hrun _) rfl h.represents
  · obtain ⟨t, hrun, ht, hnode, -⟩ := h.removeNode
    have hrun' : Runs LinkedList.removeLast s (some v) t := by
      refine (get_runs s).bind ?_
      rw [h.last, lastOr_append]
      exact hrun.bind ((deref_runs hnode).bind (.pure _ t))
    refine meets_of_runs (runs_map hrun' _) ?_ ⟨_, ht, rfl⟩
    simp [listStep]

theorem Holds.meets_removeAllByVal (expected : α → Bool) :
    Meets s (cells.map Prod.snd) (.removeAllByVal expected) := by
  have hcells : Holds s ([] ++ cells) := h
  have hgoes : ∀ v, (cells.map Prod.snd).head? = some v → expected v = false → ((0 : Nat) : Int) ≠ -1 :=
    fun _ _ _ => by decide
  obtain ⟨t, kept, hrun, ht, hkept⟩ :=
    @Walk.removeLoop α s expected _ _ _ _ _ walk_forward _ _ hcells _ h.length_le hgoes
  have htaken : taken expected (-1) 0 (cells.map Prod.snd) = (cells.map Prod.snd).countP expected := by
    rw [taken, if_neg (by omega)]
  rw [htaken, Nat.zero_add, ← h.first, ← removeAllLoop_eq] at hrun
  rw [htaken, spared_all (Nat.le_refl _)] at hkept
  have hrun' : Runs (LinkedList.removeAllByVal expected) s _ t := (get_runs s).bind hrun
  exact meets_of_runs (runs_map hrun' _) (by rw [listStep, ← hkept]; rfl) ⟨_, ht, rfl⟩

theorem Holds.meets_removeByVal {expected : α → Bool} {count : Int}
    (hop : ¬ (Op.removeByVal expected count).Faulty (cells.map Prod.snd)) :
    Meets s (cells.map Prod.snd) (.removeByVal expected count) := by
  have hcells : Holds s ([] ++ cells) := h
  have hcount : count = 0 → (∃ v, (cells.map Prod.snd).head? = some v ∧ expected v = false) →
      (cells.map Prod.snd).countP expected = 0 := fun hc hfirst => by
    by_contra hne
    exact hop ⟨hc, hfirst, Nat.pos_of_ne_zero hne⟩
  obtain ⟨t, kept, hrun, ht, hkept⟩ := walk_forward.removes hcells h.length_le hcount
  rw [← h.first] at hrun
  have hrun' : Runs (LinkedList.removeByVal expected count) s _ t := (get_runs s).bind hrun
  exact meets_of_runs (runs_map hrun' _) (by rw [listStep, ← hkept]; rfl) ⟨_, ht, rfl⟩

theorem Holds.meets_reverseRemoveByVal {expected : α → Bool} {count : Int}
    (hop : ¬ (Op.reverseRemoveByVal expected count).Faulty (cells.map Prod.snd)) :
    Meets s (cells.map Prod.snd) (.reverseRemoveByVal expected count) := by
  have hcells : Holds s (cells.reverse.reverse ++ []) := by simpa using h
  have hlast : (cells.reverse.map Prod.snd).head? = (cells.map Prod.snd).getLast? := by simp
  have hnumber : (cells.reverse.map Prod.snd).countP expected = (cells.map Prod.snd).countP expected := by
    rw [List.map_reverse, List.countP_reverse]
  have hcount : count = 0 → (∃ v, (cells.reverse.map Prod.snd).head? = some v ∧ expected v = false) →
      (cells.reverse.map Prod.snd).countP expected = 0 := fun hc hfirst => by
    rw [hlast] at hfirst
    by_contra hne
    exact hop ⟨hc, hfirst, hnumber ▸ Nat.pos_of_ne_zero hne⟩
  have hfuel : cells.reverse.length ≤ s.fresh := by
    rw [List.length_reverse]
    exact h.length_le
  obtain ⟨t, kept, hrun, ht, hkept⟩ := walk_backward.removes hcells hfuel hcount
  have htaken : taken expected count 0 (cells.reverse.map Prod.snd) =
      taken expected count 0 (cells.map Prod.snd) := by
    rw [taken, taken, hnumber]
  rw [← lastOr_reverse, List.reverse_reverse, ← h.last, htaken] at hrun
  have hrun' : Runs (LinkedList.reverseRemoveByVal expected count) s _ t := (get_runs s).bind hrun
  refine meets_of_runs (runs_map hrun' _) ?_ ⟨_, ht, rfl⟩
  rw [listStep, ← List.map_reverse, ← hkept, List.append_nil, List.map_reverse]

theorem Holds.meets_range {start stop : Int}
    (hop : ¬ (Op.range start stop : Op α).Faulty (cells.map Prod.snd)) :
    Meets s (cells.map Prod.snd) (.range start stop) := by
  have hsize := h.size
  by_cases hvalid : 0 ≤ start ∧ start < (cells.map Prod.snd).length ∧ start ≤ stop ∧
      stop ≤ (cells.map Prod.snd).length
  · have hlist : listStep (cells.map Prod.snd) (.range start stop) = some (cells.map Prod.snd, .slice
        ((((cells.map Prod.snd).drop start.toNat).take (stop - start).toNat).map some)) := if_pos hvalid
    rw [List.length_map] at hvalid
    have hlen : (cells.map Prod.snd).length = cells.length := List.length_map _
    obtain ⟨hlow, hlt, hle, hhigh⟩ := hvalid
    have hends : start = 0 ∨ start = stop := by
      by_contra hne
      rw [not_or] at hne
      exact hop ⟨by omega, by omega, by omega⟩
    refine meets_of_runs (runs_map ?_ _) hlist h.represents
    refine (get_runs s).bind ?_
    rw [if_neg (by omega), if_neg (by omega), h.first]
    rcases hends with rfl | rfl
    · have hroom : stop.toNat ≤ cells.length := by omega
      have hstop : stop = ([] : List α).length + stop.toNat := by
        rw [List.length_nil]
        omega
      simpa using rangeLoop_front h.linked h.length_le hroom hstop
    · rw [Int.sub_self]
      exact rangeLoop_nothing h.linked h.length_le 0 []
  · have hlist : listStep (cells.map Prod.snd) (.range start stop) = none := if_neg hvalid
    rw [List.length_map] at hvalid
    refine meets_of_stops (Stops.map ?_ _) hlist h.represents
    refine stops_of_runs (get_runs s) ?_
    by_cases hout : start < 0 ∨ s.size ≤ start
    · rw [if_pos hout]
      rfl
    · rw [if_neg hout, if_pos (by omega)]
      rfl

theorem Holds.meets {op : Op α} (hop : ¬ op.Faulty (cells.map Prod.snd)) :
    Meets s (cells.map Prod.snd) op := by
  cases op with
  | add v => exact h.meets_add v
  | get i => exact h.meets_get i
  | set i v => exact h.meets_set i v
  | insert i v => exact h.meets_insert hop v
  | remove i => exact h.meets_remove i
  | removeLast => exact h.meets_removeLast
  | removeAllByVal expected => exact h.meets_removeAllByVal expected
  | reverseRemoveByVal expected count => exact h.meets_reverseRemoveByVal hop
  | removeByVal expected count => exact h.meets_removeByVal hop
  | len =>
      have hrun : Runs LinkedList.len s s.size s := (get_runs s).bind (.pure _ s)
      exact meets_of_runs (runs_map hrun _) (by rw [listStep, h.size, List.length_map]) h.represents
  | forEach consumer => exact meets_of_runs (runs_map (h.forEach consumer) _) rfl h.represents
  | contains expected =>
      have hrun : Runs (LinkedList.contains expected) s _ s := (h.forEach _).bind (.pure _ s)
      refine meets_of_runs (runs_map hrun _) ?_ h.represents
      rw [visits_any]
      rfl
  | range start stop => exact h.meets_range hop

/-- A faulty operation fails the plain list. -/
theorem Holds.not_meets {op : Op α} (hop : op.Faulty (cells.map Prod.snd)) :
    ¬ Meets s (cells.map Prod.snd) op := by
  cases op with
  | insert i v =>
      obtain rfl : i = (cells.map Prod.snd).length := hop
      obtain ⟨t, hadd, ht⟩ := h.add v
      obtain ⟨u, hinsert, hu⟩ := ht.insertBefore v
      have hlen : ((cells.map Prod.snd).length : Int) = s.size := by rw [List.length_map, h.size]
      have hrun : Runs (LinkedList.insert ((cells.map Prod.snd).length : Int) v) s ⟨⟩ u := by
        rw [Runs, insert_eq, if_pos hlen, List.length_map]
        exact hadd.bind hinsert
      rintro ⟨-, hfinal⟩
      have hlist : (outcome (cells.map Prod.snd) (.insert (cells.map Prod.snd).length v)).2 =
          cells.map Prod.snd ++ [v] := by
        rw [outcome, listStep, if_pos ⟨by omega, Int.le_refl _⟩, Int.toNat_natCast,
          List.insertIdx_length_self]
      rw [step, (runs_map hrun _).final, hlist] at hfinal
      have hlength := congrArg List.length (represents_unique hfinal hu.represents)
      simp at hlength
  | range start stop =>
      obtain ⟨hstart, hlt, hstop⟩ := hop
      have hsize := h.size
      rw [List.length_map] at hstop
      have hstops : Stops (LinkedList.range start stop) s := by
        refine stops_of_runs (get_runs s) ?_
        rw [if_neg (by omega), if_neg (by omega), h.first]
        exact rangeLoop_stops h.linked (by simp; omega) hstart hlt (by omega) (.inr (by omega))
      rintro ⟨hvalue, -⟩
      rw [step, (hstops.map _).value, outcome, listStep, if_pos (by simp; omega)] at hvalue
      cases hvalue
  | removeByVal expected count =>
      obtain ⟨rfl, hfirst, hpos⟩ := hop
      have hcells : Holds s ([] ++ cells) := h
      have hloop := walk_forward.stays hcells h.length_le hfirst
      rw [← h.first] at hloop
      have hrun : Runs (LinkedList.removeByVal expected 0) s 0 s := (get_runs s).bind hloop
      rintro ⟨hvalue, -⟩
      rw [step, (runs_map hrun _).value, outcome, listStep, taken_all, Option.some.injEq,
        Ret.removed.injEq] at hvalue
      omega
  | reverseRemoveByVal expected count =>
      obtain ⟨rfl, hlast, hpos⟩ := hop
      have hcells : Holds s (cells.reverse.reverse ++ []) := by simpa using h
      have hfirst : ∃ v, (cells.reverse.map Prod.snd).head? = some v ∧ expected v = false := by simpa using hlast
      have hfuel : cells.reverse.length ≤ s.fresh := by
        rw [List.length_reverse]
        exact h.length_le
      have hloop := walk_backward.stays hcells hfuel hfirst
      rw [← lastOr_reverse, List.reverse_reverse, ← h.last] at hloop
      have hrun : Runs (LinkedList.reverseRemoveByVal expected 0) s 0 s := (get_runs s).bind hloop
      rintro ⟨hvalue, -⟩
      rw [step, (runs_map hrun _).value, outcome, listStep, taken_all, Option.some.injEq,
        Ret.removed.injEq] at hvalue
      omega
  | _ => exact hop.elim

end

/-- A list does what the plain list does exactly as long as no operation is faulty. -/
theorem refines_iff_sound {l : List α} (h : Represents s l) (ops : List (Op α)) :
    Refines s l ops ↔ Sound l ops := by
  induction ops generalizing s l with
  | nil => exact ⟨fun _ => trivial, fun _ => h⟩
  | cons op ops ih =>
      obtain ⟨cells, hcells, rfl⟩ := id h
      by_cases hop : op.Faulty (cells.map Prod.snd)
      · refine ⟨fun hr => ?_, fun hs => absurd hop hs.1⟩
        obtain ⟨-, hvalue, hrest⟩ := hr
        exact absurd ⟨hvalue, hrest.represents⟩ (hcells.not_meets hop)
      · obtain ⟨hvalue, hfinal⟩ := hcells.meets hop
        constructor
        · rintro ⟨-, -, hrest⟩
          exact ⟨hop, (ih hfinal).mp hrest⟩
        · rintro ⟨-, hrest⟩
          exact ⟨h, hvalue, (ih hfinal).mpr hrest⟩

theorem make_runs {l : List α} (h : Represents s l) (values : List α) :
    ∃ t, Runs (make values) s ⟨⟩ t ∧ Represents t (l ++ values) := by
  induction values generalizing s l with
  | nil => exact ⟨s, .pure _ s, by simpa using h⟩
  | cons v values ih =>
      obtain ⟨cells, hcells, rfl⟩ := h
      obtain ⟨t, hrun, ht⟩ := hcells.add v
      obtain ⟨u, hmake, hu⟩ := ih ht.represents
      exact ⟨u, hrun.bind hmake, by simpa using hu⟩

/-- From the values it is made of, the linked list does what the plain list does, panics included,
exactly as long as no operation is faulty. -/
theorem linked_list_refines_iff (values : List α) (ops : List (Op α)) :
    Refines (final (make values) empty) values ops ↔ Sound values ops := by
  obtain ⟨t, hrun, ht⟩ := make_runs empty_holds.represents values
  rw [hrun.final]
  exact refines_iff_sound ht ops

end Traitor.LinkedList
