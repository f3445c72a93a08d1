import Traitor.ListRemoval

namespace Traitor.QuickList

variable {α : Type} {data : List (Page α)} {iter iter' : Iterator} {before before' after after' : List α}
  {val val' : α} {size : Int}

theorem Points.node_le (h : Points data iter before val after) (h' : Points data iter' before' val' after')
    (hlen : before.length = before'.length) :
    ∀ n m, iter.node = some n → iter'.node = some m → n ≤ m := by
  obtain ⟨pre, cap, post, left, right, rfl, rfl, rfl, rfl⟩ := h
  obtain ⟨pre', cap', post', left', right', hdata, rfl, rfl, rfl⟩ := h'
  rintro _ _ ⟨⟩ ⟨⟩
  by_contra hlt
  rcases List.append_eq_append_iff.mp hdata with ⟨mid, rfl, hpost⟩ | ⟨mid, rfl, hpost⟩
  · simp at hlt
  · cases mid with
    | nil => simp at hlt
    | cons page mid =>
        obtain ⟨rfl, -⟩ := List.cons.inj hpost
        simp at hlen

/-- A position is in one page only. -/
theorem Points.iter_eq (h : Points data iter before val after)
    (h' : Points data iter' before' val' after') (hlen : before.length = before'.length) :
    iter = iter' := by
  have hle := h.node_le h' hlen
  have hge := h'.node_le h hlen.symm
  obtain ⟨pre, cap, post, left, right, rfl, rfl, rfl, rfl⟩ := h
  obtain ⟨pre', cap', post', left', right', hdata, rfl, rfl, rfl⟩ := h'
  have hpre : pre.length = pre'.length := Nat.le_antisymm (hle _ _ rfl rfl) (hge _ _ rfl rfl)
  obtain ⟨rfl, -⟩ := List.append_inj hdata hpre
  rw [List.length_append, List.length_append] at hlen
  rw [show left.length = left'.length by omega]

theorem represents_elems {ql : QuickList α} (hpages : NoEmptyPage ql.data) (hsize : ql.size = total ql) :
    Represents ql (elems ql) :=
  ⟨rfl, by rw [hsize, total_eq], hpages⟩

/-- From both ends the same place is found. -/
theorem find_both {ql : QuickList α} (hsize : ql.size = total ql) {i : Nat}
    (hi : i < (elems ql).length) :
    ∃ iter, findFront i ql.data 0 0 = some iter ∧ findBack i ql.data.reverse ql.size = some iter ∧
      find ql i = some iter ∧ iter.get ql = (elems ql)[i]? := by
  have hlen : ql.size = (elemsOf ql.data).length := by
    rw [hsize, total_eq]
    rfl
  have hin : i < (elemsOf ([] ++ ql.data)).length := hi
  obtain ⟨iter, before, val, after, hfront, hp, hl⟩ := findFront_points i [] ql.data (by simp) hin
  obtain ⟨iter', before', val', after', hback, hp', hl'⟩ := findBack_points ql.data [] i ql.size
    (by omega) (by rw [hlen]; exact_mod_cast hi)
  rw [List.nil_append] at hp
  rw [List.append_nil] at hp'
  obtain rfl : iter = iter' := hp.iter_eq hp' (by omega)
  refine ⟨iter, hfront, hback, ?_, ?_⟩
  · rw [find, if_neg (by rw [hlen]; unfold elems at hi; omega)]
    split
    · exact hfront
    · exact hback
  · have helems : elems ql = before ++ val :: after := hp.elems_eq
    rw [hp.get ql.size, helems, ← hl]
    simp

/-- The pages of a list that is not empty are read and written like the list of their elements. -/
theorem paged_operations (grow : Nat → Nat → Nat) {ql : QuickList α} (hne : elems ql ≠ [])
    (hpages : NoEmptyPage ql.data) (hsize : ql.size = total ql) :
    (∀ i < (elems ql).length, ∃ iter, findFront i ql.data 0 0 = some iter ∧
      findBack i ql.data.reverse ql.size = some iter ∧ find ql i = some iter ∧
      iter.get ql = (elems ql)[i]?) ∧
    (∀ i ≤ (elems ql).length, ∀ v, ∃ ql', insert grow ql i v = some ql' ∧
      Represents ql' ((elems ql).insertIdx i v)) ∧
    (∀ i < (elems ql).length, ∀ v, ∃ ql', set ql i v = some ql' ∧ Represents ql' ((elems ql).set i v)) ∧
    (∀ i, ∀ hi : i < (elems ql).length, ∃ ql', remove ql i = some (ql', (elems ql)[i]) ∧
      Represents ql' ((elems ql).eraseIdx i)) ∧
    (∃ ql', removeLast ql = (ql', some (elems ql).getLast?) ∧ Represents ql' (elems ql).dropLast) ∧
    (∀ start stop : Nat, start < (elems ql).length → start ≤ stop → stop ≤ (elems ql).length →
      range ql start stop = some (((elems ql).drop start).take (stop - start))) := by
  have h := represents_elems hpages hsize
  refine ⟨fun i hi => find_both hsize hi, fun i hi v => ?_, fun i hi v => h.set hi v,
    fun i hi => h.remove hi, h.removeLast, fun start stop hstart hle hstop => h.range hstart hle hstop⟩
  rcases Nat.lt_or_eq_of_le hi with hlt | rfl
  · exact h.insert grow hlt v
  · refine ⟨add grow ql v, ?_, ?_⟩
    · rw [QuickList.insert, if_pos h.size.symm]
    · rw [List.insertIdx_length_self]
      exact h.add hne grow v

def twoPages : QuickList Nat := ⟨[⟨[5, 6], pageSize⟩, ⟨[7], pageSize⟩], 3⟩

theorem paged_operations_twoPages :
    ∃ ql', insert (fun cap _ => 2 * cap) twoPages 3 8 = some ql' ∧ Represents ql' [5, 6, 7, 8] :=
  (paged_operations (fun cap _ => 2 * cap) (show elems twoPages ≠ [] by decide)
    (by simp [twoPages]) (by decide)).2.1 3 (by decide) 8

/-- The elements that stay when the first `n` expected ones go. -/
def spared (expected : α → Bool) : Nat → List α → List α
  | 0, l => l
  | _ + 1, [] => []
  | n + 1, a :: l => if expected a then spared expected n l else a :: spared expected (n + 1) l

section

variable {expected : α → Bool} {count : Int} {removed : Nat}

@[simp] theorem spared_zero (expected : α → Bool) (l : List α) : spared expected 0 l = l := by
  cases l <;> rfl

@[simp] theorem spared_nil (expected : α → Bool) (n : Nat) : spared expected n [] = [] := by
  cases n <;> rfl

theorem spared_keep (hv : expected val = false) (n : Nat) (l : List α) :
    spared expected n (val :: l) = val :: spared expected n l := by
  cases n with
  | zero => simp
  | succ n => simp [spared, hv]

theorem spared_drop (hv : expected val = true) (n : Nat) (l : List α) :
    spared expected (n + 1) (val :: l) = spared expected n l := by
  simp [spared, hv]

/-- When no more are expected than go, all of them go. -/
theorem spared_all {n : Nat} {l : List α} (h : l.countP expected ≤ n) :
    spared expected n l = l.filter (fun a => !expected a) := by
  induction l generalizing n with
  | nil => simp
  | cons a l ih =>
      cases ha : expected a with
      | false =>
          rw [spared_keep ha, ih (by simpa [ha] using h)]
          simp [ha]
      | true =>
          rw [List.countP_cons_of_pos ha] at h
          obtain ⟨n, rfl⟩ := Nat.exists_eq_add_of_le' (Nat.le_trans (Nat.le_add_left 1 _) h)
          rw [spared_drop ha, ih (by omega)]
          simp [ha]

/-- With the last element the pass is at its end, or nowhere if a page is left before the one that is gone. -/
theorem removeLoop_last_spared {fuel : Nat} (h : Points data iter before val []) (hpages : NoEmptyPage data)
    (hv : expected val = true) (hfuel : 0 < fuel)
    (hsome : (removeLoop expected count (fuel + 1) ⟨data, size⟩ iter removed).2 ≠ none) :
    ∃ data', removeLoop expected count (fuel + 1) ⟨data, size⟩ iter removed =
        (⟨data', size - 1⟩, some (removed + 1)) ∧ elemsOf data' = before ∧ NoEmptyPage data' := by
  obtain ⟨last, hl⟩ := h.exists_last
  obtain ⟨data', iter', hr, helems, hpages', hends⟩ := h.remove_last hl size hpages
  rw [removeLoop, h.atEnd, h.get] at hsome ⊢
  dsimp only at hsome ⊢
  rw [if_pos hv, hr] at hsome ⊢
  dsimp only at hsome ⊢
  refine ⟨data', ?_, helems, hpages'⟩
  by_cases hc : (removed + 1 : Int) = count
  · rw [if_pos hc]
  · rw [if_neg hc] at hsome ⊢
    cases hends with
    | kept left hlast hne hleft hend hprev => exact removeLoop_end hfuel (hend _)
    | gone hlast hiter =>
        subst hiter
        by_cases hnil : data' = []
        · subst hnil
          exact removeLoop_end hfuel rfl
        · exact absurd (removeLoop_nowhere hnil fuel) hsome

theorem taken_last (hv : expected val = true) : taken expected count removed [val] = 1 := by
  by_cases hc : (removed + 1 : Int) = count
  · exact taken_stop hv hc
  · rw [taken_remove hv hc, taken_nil]

/-- A pass from the front on that does not panic takes the first elements that are expected. -/
theorem removeLoop_spared {fuel : Nat} (h : Points data iter before val after)
    (hpages : NoEmptyPage data) (hfuel : after.length + 1 < fuel)
    (hsome : (removeLoop expected count fuel ⟨data, size⟩ iter removed).2 ≠ none) :
    ∃ data', removeLoop expected count fuel ⟨data, size⟩ iter removed =
        (⟨data', size - taken expected count removed (val :: after)⟩,
          some (removed + taken expected count removed (val :: after))) ∧
      elemsOf data' =
        before ++ spared expected (taken expected count removed (val :: after)) (val :: after) ∧
      NoEmptyPage data' := by
  induction fuel generalizing data iter before val after size removed with
  | zero => omega
  | succ fuel ih =>
      by_cases hv : expected val = true
      · cases after with
        | nil =>
            obtain ⟨data', hloop, helems, hpages'⟩ :=
              removeLoop_last_spared h hpages hv (by simp at hfuel; omega) hsome
            rw [taken_last hv, spared_drop hv, spared_zero, List.append_nil]
            exact ⟨data', hloop, helems, hpages'⟩
        | cons a after =>
            obtain ⟨last, hl⟩ := h.exists_last
            obtain ⟨data', iter', last', hr, hp, hpages', -, -⟩ := h.remove_inner hl size hpages
            rw [removeLoop, h.atEnd, h.get] at hsome ⊢
            dsimp only at hsome ⊢
            rw [if_pos hv, hr] at hsome ⊢
            dsimp only at hsome ⊢
            by_cases hc : (removed + 1 : Int) = count
            · rw [if_pos hc, taken_stop hv hc, spared_drop hv, spared_zero]
              exact ⟨data', rfl, hp.elems_eq, hpages'⟩
            · rw [if_neg hc] at hsome ⊢
              obtain ⟨data'', hloop, helems, hpages''⟩ :=
                ih hp hpages' (by simp at hfuel; omega) hsome
              rw [taken_remove hv hc, Nat.add_comm 1, spared_drop hv, hloop]
              refine ⟨data'', ?_, helems, hpages''⟩
              rw [Nat.add_assoc, Nat.add_comm 1, Int.sub_sub, Int.add_comm 1]
              rfl
      · have hfalse : expected val = false := by simpa using hv
        rw [removeLoop, h.atEnd, h.get] at hsome ⊢
        dsimp only at hsome ⊢
        rw [if_neg hv] at hsome ⊢
        rw [taken_next hfalse, spared_keep hfalse]
        cases after with
        | nil =>
            obtain ⟨iter', hn, hend⟩ := h.next_end size hpages
            rw [hn]
            dsimp only
            rw [removeLoop_end (by simp at hfuel; omega) hend, taken_nil, spared_nil]
            exact ⟨data, by simp, h.elems_eq, hpages⟩
        | cons a after =>
            obtain ⟨iter', hn, hp⟩ := h.next size hpages
            rw [hn] at hsome ⊢
            dsimp only at hsome ⊢
            obtain ⟨data', hloop, helems, hpages'⟩ := ih hp hpages (by simp at hfuel; omega) hsome
            exact ⟨data', hloop, by simpa using helems, hpages'⟩

/-- Where a pass from the back on goes from an element that it takes. -/
inductive Recedes (data' : List (Page α)) (iter' : Iterator) (size : Int) (before after : List α) : Prop
  | panics (hprev : iter'.prev ⟨data', size⟩ = none)
  | stops (hbefore : before = []) (iter'' : Iterator)
      (hprev : iter'.prev ⟨data', size⟩ = some (iter'', false))
      (hbegin : iter''.atBegin ⟨data', size⟩ = true)
  | goes (before' : List α) (b : α) (hbefore : before = before' ++ [b]) (iter'' : Iterator)
      (hprev : iter'.prev ⟨data', size⟩ = some (iter'', true))
      (hpoints : Points data' iter'' before' b after)

theorem Points.remove_prev (h : Points data iter before val after) (size : Int)
    (hpages : NoEmptyPage data) :
    ∃ data' iter', iter.remove ⟨data, size⟩ = some (⟨data', size - 1⟩, iter', val) ∧
      elemsOf data' = before ++ after ∧ NoEmptyPage data' ∧
      Recedes data' iter' (size - 1) before after := by
  obtain ⟨last, hl⟩ := h.exists_last
  cases after with
  | nil =>
      obtain ⟨data', iter', hr, helems, hpages', hends⟩ := h.remove_last hl size hpages
      rw [List.append_nil]
      refine ⟨data', iter', hr, helems, hpages', ?_⟩
      cases hends with
      | kept left hlast hne hleft hend hprev =>
          obtain ⟨iter'', before', b, hprev, hp⟩ := hprev (size - 1)
          exact .goes before' b (helems.symm.trans hp.elems_eq) iter'' hprev hp
      | gone hlast hiter =>
          subst hiter
          by_cases hnil : data' = []
          · subst hnil
            exact .stops helems.symm ⟨none, -1⟩ (prev_empty (size - 1)) rfl
          · exact .panics (prev_nowhere hnil (size - 1))
  | cons a after =>
      obtain ⟨data', iter', last', hr, hp, hpages', -, -⟩ := h.remove_inner hl size hpages
      refine ⟨data', iter', hr, hp.elems_eq, hpages', ?_⟩
      rcases List.eq_nil_or_concat' before with rfl | ⟨before, b, rfl⟩
      · obtain ⟨iter'', hprev, hbegin⟩ := hp.prev_nil (size - 1) hpages'
        exact .stops rfl iter'' hprev hbegin
      · obtain ⟨iter'', hprev, hp'⟩ := hp.prev (size - 1) hpages'
        exact .goes before b rfl iter'' hprev hp'

/-- A pass from the back on that does not panic takes the last elements that are expected. -/
theorem reverseRemoveLoop_spared {fuel : Nat} (h : Points data iter before val after)
    (hpages : NoEmptyPage data) (hfuel : before.length + 1 < fuel)
    (hsome : (reverseRemoveLoop expected count fuel ⟨data, size⟩ iter removed).2 ≠ none) :
    ∃ data', reverseRemoveLoop expected count fuel ⟨data, size⟩ iter removed =
        (⟨data', size - taken expected count removed (val :: before.reverse)⟩,
          some (removed + taken expected count removed (val :: before.reverse))) ∧
      elemsOf data' = (spared expected (taken expected count removed (val :: before.reverse))
        (val :: before.reverse)).reverse ++ after ∧
      NoEmptyPage data' := by
  induction fuel generalizing data iter before val after size removed with
  | zero => omega
  | succ fuel ih =>
      rw [reverseRemoveLoop, h.atBegin, if_neg Bool.false_ne_true, h.get] at hsome ⊢
      dsimp only at hsome ⊢
      by_cases hv : expected val = true
      · obtain ⟨data', iter', hr, helems, hpages', hrecedes⟩ := h.remove_prev size hpages
        rw [if_pos hv, hr] at hsome ⊢
        dsimp only at hsome ⊢
        by_cases hc : (removed + 1 : Int) = count
        · rw [if_pos hc, taken_stop hv hc, spared_drop hv, spared_zero, List.reverse_reverse]
          exact ⟨data', rfl, helems, hpages'⟩
        · rw [if_neg hc] at hsome ⊢
          rw [taken_remove hv hc, Nat.add_comm 1, spared_drop hv]
          cases hrecedes with
          | panics hprev =>
              rw [hprev] at hsome
              exact absurd rfl hsome
          | stops hbefore iter'' hprev hbegin =>
              subst hbefore
              rw [hprev]
              dsimp only
              rw [reverseRemoveLoop_begin (by simp at hfuel; omega) hbegin, List.reverse_nil, taken_nil,
                spared_nil]
              exact ⟨data', rfl, helems, hpages'⟩
          | goes before' b hbefore iter'' hprev hpoints =>
              subst hbefore
              rw [hprev] at hsome ⊢
              dsimp only at hsome ⊢
              obtain ⟨data'', hloop, helems', hpages''⟩ :=
                ih hpoints hpages' (by simp at hfuel; omega) hsome
              rw [List.reverse_append, List.reverse_singleton, List.singleton_append, hloop]
              refine ⟨data'', ?_, helems', hpages''⟩
              rw [Nat.add_assoc, Nat.add_comm 1, Int.sub_sub, Int.add_comm 1]
              rfl
      · have hfalse : expected val = false := by simpa using hv
        rw [if_neg hv] at hsome ⊢
        rw [taken_next hfalse, spared_keep hfalse]
        rcases List.eq_nil_or_concat' before with rfl | ⟨before, b, rfl⟩
        · obtain ⟨iter', hprev, hbegin⟩ := h.prev_nil size hpages
          rw [hprev]
          dsimp only
          rw [reverseRemoveLoop_begin (by simp at hfuel; omega) hbegin, List.reverse_nil, taken_nil,
            spared_nil]
          exact ⟨data, by simp, h.elems_eq, hpages⟩
        · obtain ⟨iter', hprev, hp⟩ := h.prev size hpages
          rw [hprev] at hsome ⊢
          dsimp only at hsome ⊢
          obtain ⟨data', hloop, helems, hpages'⟩ := ih hp hpages (by simp at hfuel; omega) hsome
          rw [List.reverse_append, List.reverse_singleton, List.singleton_append, hloop]
          exact ⟨data', rfl, by simpa using helems, hpages'⟩

theorem length_spared (expected : α → Bool) (n : Nat) (l : List α) :
    (spared expected n l).length + min n (l.countP expected) = l.length := by
  induction l generalizing n with
  | nil => simp
  | cons a l ih =>
      cases ha : expected a with
      | false =>
          have hcount : (a :: l).countP expected = l.countP expected := by simp [ha]
          rw [spared_keep ha, hcount, List.length_cons, List.length_cons, ← ih n]
          omega
      | true =>
          cases n with
          | zero => simp
          | succ n =>
              rw [spared_drop ha, List.countP_cons_of_pos ha, List.length_cons, ← ih n]
              omega

theorem taken_le_countP (expected : α → Bool) (count : Int) (removed : Nat) (l : List α) :
    taken expected count removed l ≤ l.countP expected := by
  rw [taken]
  split <;> omega

theorem taken_all (expected : α → Bool) (l : List α) : taken expected 0 0 l = l.countP expected := by
  rw [taken, if_neg (by omega)]

theorem taken_first (hcount : 1 ≤ count) (l : List α) :
    taken expected count 0 l = min count.toNat (l.countP expected) := by
  rw [taken]
  split <;> omega

theorem spared_taken (hcount : 1 ≤ count) (l : List α) :
    spared expected (taken expected count 0 l) l = spared expected count.toNat l := by
  rw [taken_first hcount]
  rcases Nat.le_total count.toNat (l.countP expected) with hle | hle
  · rw [Nat.min_eq_left hle]
  · rw [Nat.min_eq_right hle, spared_all hle, spared_all (Nat.le_refl _)]

/-- The size is right after a pass that took what is missing. -/
theorem represents_spared {data' : List (Page α)} {l l' : List α}
    (hsize : size = (l.length : Nat)) (helems : elemsOf data' = l') (hpages : NoEmptyPage data')
    (hlen : l'.length = (spared expected (taken expected count 0 l) l).length) :
    Represents ⟨data', size - taken expected count 0 l⟩ l' := by
  refine ⟨helems, ?_, hpages⟩
  have hspared := length_spared expected (taken expected count 0 l) l
  have htaken := taken_le_countP expected count 0 l
  rw [Nat.min_eq_left htaken] at hspared
  rw [hlen]
  dsimp only
  omega

end

section

variable {ql : QuickList α} {l : List α} {expected : α → Bool} {count : Int}

theorem Represents.wellFormed_pos (h : Represents ql l) (hl : l ≠ []) :
    WellFormed ql ∧ 0 < ql.size := by
  have hpos := List.length_pos_iff.mpr hl
  have hsize := h.size
  refine ⟨⟨h.pages, ?_⟩, by omega⟩
  rw [h.elems]
  omega

theorem Represents.removeByVal (h : Represents ql l) (hl : l ≠ [])
    (hsome : (removeByVal ql expected count).2 ≠ none) :
    ∃ ql', QuickList.removeByVal ql expected count = (ql', some (taken expected count 0 l)) ∧
      Represents ql' (spared expected (taken expected count 0 l) l) := by
  have hpos := List.length_pos_iff.mpr hl
  have hsize := h.size
  obtain ⟨iter, before, val, after, hf, hp, hb, he⟩ := h.find (i := 0) hpos
  obtain rfl : before = [] := List.eq_nil_of_length_eq_zero hb
  rw [List.nil_append] at he
  subst he
  have hfuel : after.length + 1 < passes ql := by
    have hpasses := length_elems_lt_passes ql
    rwa [h.elems, List.length_cons] at hpasses
  have hf' : QuickList.find ql 0 = some iter := hf
  rw [QuickList.removeByVal, if_neg (by omega), hf'] at hsome ⊢
  obtain ⟨data', hloop, helems, hpages⟩ := removeLoop_spared hp h.pages hfuel hsome
  rw [Nat.zero_add] at hloop
  exact ⟨_, hloop, represents_spared hsize helems hpages rfl⟩

theorem Represents.reverseRemoveByVal (h : Represents ql l) (hl : l ≠ [])
    (hsome : (reverseRemoveByVal ql expected count).2 ≠ none) :
    ∃ ql', QuickList.reverseRemoveByVal ql expected count =
        (ql', some (taken expected count 0 l.reverse)) ∧
      Represents ql' (spared expected (taken expected count 0 l.reverse) l.reverse).reverse := by
  have hpos := List.length_pos_iff.mpr hl
  have hsize := h.size
  obtain ⟨iter, before, val, after, hf, hp, hb, he⟩ := h.find (i := l.length - 1) (by omega)
  have hlength := congrArg List.length he
  rw [List.length_append, List.length_cons] at hlength
  obtain rfl : after = [] := List.eq_nil_of_length_eq_zero (by omega)
  have hreverse : l.reverse = val :: before.reverse := by simp [he]
  have hfuel : before.length + 1 < passes ql := by
    have hpasses := length_elems_lt_passes ql
    rw [h.elems] at hpasses
    omega
  have hf' : QuickList.find ql (ql.size - 1) = some iter := by
    rw [← hf]
    congr 1
    omega
  rw [QuickList.reverseRemoveByVal, if_neg (by omega), hf'] at hsome ⊢
  obtain ⟨data', hloop, helems, hpages⟩ := reverseRemoveLoop_spared hp h.pages hfuel hsome
  rw [Nat.zero_add, ← hreverse] at hloop
  rw [← hreverse, List.append_nil] at helems
  refine ⟨_, hloop, represents_spared ?_ helems hpages (List.length_reverse ..)⟩
  rw [List.length_reverse]
  exact hsize

/-- All elements of the last page are expected, and one in front of it is not. -/
def LosesLastPage (ql : QuickList α) (expected : α → Bool) : Prop :=
  ∃ front page, ql.data = front ++ [page] ∧ (∀ a ∈ page.elems, expected a = true) ∧
    ∃ a ∈ elemsOf front, expected a = false

/-- There is a page in front of the last one, and of that all elements are expected, which are fewer
than shall go. -/
def LosesLastPageBack (ql : QuickList α) (expected : α → Bool) (count : Int) : Prop :=
  ∃ front page, ql.data = front ++ [page] ∧ (∀ a ∈ page.elems, expected a = true) ∧
    front ≠ [] ∧ page.elems.length < count

theorem Represents.skipped_eq (h : Represents ql l) : skipped ql = 0 := by
  have hsize := h.size
  rw [skipped, h.elems]
  split <;> omega

theorem strands_iff (h : Represents ql l) :
    Strands ql expected count ↔
      LosesLastPage ql expected ∧ ¬ (0 < count ∧ count ≤ l.countP expected) := by
  rw [Strands, h.skipped_eq, List.drop_zero, List.take_zero, h.elems]
  constructor
  · rintro ⟨last, ⟨front, page, hdata, rfl⟩, ⟨rest, hrest, hleft⟩, hall, hlimit⟩
    have helems : l = elemsOf front ++ page.elems := by
      rw [← h.elems, QuickList.elems, hdata]
      simp
    obtain ⟨rfl, -⟩ := List.append_inj' (helems.symm.trans hrest) rfl
    refine ⟨⟨front, page, hdata, hall, hleft.resolve_left (not_not.mpr rfl)⟩, ?_⟩
    rwa [Int.natCast_zero, Int.zero_add] at hlimit
  · rintro ⟨⟨front, page, hdata, hall, hleft⟩, hlimit⟩
    have helems : l = elemsOf front ++ page.elems := by
      rw [← h.elems, QuickList.elems, hdata]
      simp
    refine ⟨page.elems, ⟨front, page, hdata, rfl⟩, ⟨elemsOf front, helems, .inr hleft⟩, hall, ?_⟩
    rwa [Int.natCast_zero, Int.zero_add]

theorem strandsBack_iff (h : Represents ql l) (hcount : 1 ≤ count) :
    StrandsBack ql expected count ↔ LosesLastPageBack ql expected count := by
  have hlength (front : List (Page α)) (page : Page α) (hdata : ql.data = front ++ [page]) :
      page.elems.length < (elems ql).length ↔ front ≠ [] := by
    have hfront : NoEmptyPage front := by
      have hpages := h.pages
      rw [hdata, noEmptyPage_append] at hpages
      exact hpages.1
    rw [elems, hdata, ne_eq, ← elemsOf_eq_nil hfront, ← ne_eq, ← List.length_pos_iff]
    simp
  constructor
  · rintro ⟨last, ⟨front, page, hdata, rfl⟩, hall, hlt, hlimit⟩
    exact ⟨front, page, hdata, hall, (hlength front page hdata).mp hlt, by omega⟩
  · rintro ⟨front, page, hdata, hall, hfront, hlimit⟩
    exact ⟨page.elems, ⟨front, page, hdata, rfl⟩, hall, (hlength front page hdata).mpr hfront, by omega⟩

def RemovesAll (ql : QuickList α) (expected : α → Bool) : Prop :=
  ∃ ql', removeAllByVal ql expected = (ql', some ((elems ql).countP expected)) ∧
    Represents ql' ((elems ql).filter fun a => !expected a)

def RemovesFirst (ql : QuickList α) (expected : α → Bool) (count : Int) : Prop :=
  ∃ ql', removeByVal ql expected count = (ql', some (min count.toNat ((elems ql).countP expected))) ∧
    Represents ql' (spared expected count.toNat (elems ql))

def RemovesLast (ql : QuickList α) (expected : α → Bool) (count : Int) : Prop :=
  ∃ ql', reverseRemoveByVal ql expected count =
      (ql', some (min count.toNat ((elems ql).countP expected))) ∧
    Represents ql' (spared expected count.toNat (elems ql).reverse).reverse

theorem removesAll_iff (h : Represents ql (elems ql)) (hne : elems ql ≠ []) :
    RemovesAll ql expected ↔ ¬ LosesLastPage ql expected := by
  obtain ⟨hwf, hpos⟩ := h.wellFormed_pos hne
  have hnone : (QuickList.removeByVal ql expected 0).2 = none ↔ LosesLastPage ql expected := by
    rw [removeByVal_none_iff hwf hpos, strands_iff h, and_iff_left (by omega)]
  rw [RemovesAll, removeAllByVal_eq hpos, ← hnone]
  constructor
  · rintro ⟨ql', hq, -⟩ hn
    rw [hq] at hn
    exact Option.some_ne_none _ hn
  · intro hsome
    obtain ⟨ql', hq, hr⟩ := h.removeByVal hne hsome
    rw [taken_all, spared_all (Nat.le_refl _)] at hr
    rw [taken_all] at hq
    exact ⟨ql', hq, hr⟩

theorem removesFirst_iff (h : Represents ql (elems ql)) (hne : elems ql ≠ [])
    (hcount : 1 ≤ count) :
    RemovesFirst ql expected count ↔
      ¬ (LosesLastPage ql expected ∧ (elems ql).countP expected < count) := by
  obtain ⟨hwf, hpos⟩ := h.wellFormed_pos hne
  have hnone : (QuickList.removeByVal ql expected count).2 = none ↔
      LosesLastPage ql expected ∧ (elems ql).countP expected < count := by
    rw [removeByVal_none_iff hwf hpos, strands_iff h]
    exact and_congr_right fun _ => by omega
  rw [RemovesFirst, ← hnone]
  constructor
  · rintro ⟨ql', hq, -⟩ hn
    rw [hq] at hn
    exact Option.some_ne_none _ hn
  · intro hsome
    obtain ⟨ql', hq, hr⟩ := h.removeByVal hne hsome
    rw [spared_taken hcount] at hr
    rw [taken_first hcount] at hq
    exact ⟨ql', hq, hr⟩

theorem removesLast_iff (h : Represents ql (elems ql)) (hne : elems ql ≠ [])
    (hcount : 1 ≤ count) :
    RemovesLast ql expected count ↔ ¬ LosesLastPageBack ql expected count := by
  obtain ⟨hwf, hpos⟩ := h.wellFormed_pos hne
  rw [RemovesLast, ← strandsBack_iff h hcount, ← reverseRemoveByVal_none_iff hwf hpos]
  constructor
  · rintro ⟨ql', hq, -⟩ hn
    rw [hq] at hn
    exact Option.some_ne_none _ hn
  · intro hsome
    obtain ⟨ql', hq, hr⟩ := h.reverseRemoveByVal hne hsome
    rw [spared_taken hcount] at hr
    rw [taken_first hcount, List.countP_reverse] at hq
    exact ⟨ql', hq, hr⟩

/-- A removal by value does what it does on the elements unless the last page goes in it. -/
theorem removals_by_val_iff (hne : elems ql ≠ []) (hpages : NoEmptyPage ql.data)
    (hsize : ql.size = total ql) (expected : α → Bool) (hcount : 1 ≤ count) :
    (RemovesAll ql expected ↔ ¬ LosesLastPage ql expected) ∧
    (RemovesFirst ql expected count ↔
      ¬ (LosesLastPage ql expected ∧ (elems ql).countP expected < count)) ∧
    (RemovesLast ql expected count ↔ ¬ LosesLastPageBack ql expected count) :=
  have h := represents_elems hpages hsize
  ⟨removesAll_iff h hne, removesFirst_iff h hne hcount, removesLast_iff h hne hcount⟩

theorem removals_by_val_iff_twoPages :
    (RemovesAll twoPages (· == 6) ↔ ¬ LosesLastPage twoPages (· == 6)) ∧
    (RemovesFirst twoPages (· == 6) 2 ↔
      ¬ (LosesLastPage twoPages (· == 6) ∧ (elems twoPages).countP (· == 6) < (2 : Int))) ∧
    (RemovesLast twoPages (· == 6) 2 ↔ ¬ LosesLastPageBack twoPages (· == 6) 2) :=
  removals_by_val_iff (by decide) (by simp [twoPages]) (by decide) (· == 6) (by decide)

/-- The last page goes, and with it what the pass stands on. -/
theorem twoPages_removal_panics :
    elems twoPages = [5, 6, 7] ∧ (∀ page ∈ twoPages.data, page.elems ≠ []) ∧
    twoPages.size = total twoPages ∧
    (removeAllByVal twoPages (· == 7)).2 = none ∧
    (removeByVal twoPages (· == 7) 2).2 = none ∧
    (reverseRemoveByVal twoPages (· == 7) 2).2 = none := by
  decide

end

end Traitor.QuickList
