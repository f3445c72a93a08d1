import Traitor.QuickListRefinement

namespace Traitor.QuickList

variable {α : Type}

/-- What every operation keeps. The size may have fallen behind the pages. -/
structure WellFormed (ql : QuickList α) : Prop where
  pages : NoEmptyPage ql.data
  size_le : ql.size ≤ (elems ql).length

variable {ql : QuickList α}

theorem newQuickList_wellFormed : WellFormed (newQuickList : QuickList α) :=
  ⟨noEmptyPage_nil, by simp [newQuickList, elems]⟩

theorem range_of_find {index : Int} {iter : Iterator} (h : find ql index = some iter) :
    0 ≤ index ∧ index < ql.size := by
  rw [find] at h
  split at h
  · simp at h
  · omega

theorem points_of_get {iter : Iterator} {val : α} (h : iter.get ql = some val) :
    ∃ before after, Points ql.data iter before val after := by
  obtain ⟨page, hpage, hget⟩ := Option.bind_eq_some_iff.mp h
  obtain ⟨n, hn, hpage⟩ := Option.bind_eq_some_iff.mp hpage
  split at hget
  · simp at hget
  · rename_i hoff
    obtain ⟨hnlt, rfl⟩ := List.getElem?_eq_some_iff.mp hpage
    obtain ⟨hlt, -⟩ := List.getElem?_eq_some_iff.mp hget
    obtain ⟨val', after, hp⟩ := points_of_lt (ql.data.take n) (ql.data.drop (n + 1)) hlt
    have hdata : ql.data.take n ++ ql.data[n] :: ql.data.drop (n + 1) = ql.data := by simp
    have hiter : (⟨some (ql.data.take n).length, iter.offset.toNat⟩ : Iterator) = iter := by
      rw [List.length_take, Nat.min_eq_left (Nat.le_of_lt hnlt),
        Int.toNat_of_nonneg (Int.not_lt.mp hoff), ← hn]
    rw [hdata, hiter] at hp
    obtain rfl := Option.some.inj (h.symm.trans (hp.get ql.size))
    exact ⟨_, after, hp⟩

namespace WellFormed

theorem find (h : WellFormed ql) {index : Int} (hlow : 0 ≤ index) (hhigh : index < ql.size) :
    ∃ iter before val after, find ql index = some iter ∧ Points ql.data iter before val after := by
  obtain ⟨iter, before, val, after, hf, hp, -⟩ :=
    find_points (by rw [total_eq]; exact h.size_le) hlow hhigh
  exact ⟨iter, before, val, after, hf, hp⟩

theorem points_of_find (h : WellFormed ql) {index : Int} {iter : Iterator}
    (hf : QuickList.find ql index = some iter) :
    ∃ before val after, Points ql.data iter before val after := by
  obtain ⟨hlow, hhigh⟩ := range_of_find hf
  obtain ⟨iter', before, val, after, hf', hp⟩ := h.find hlow hhigh
  obtain rfl := Option.some.inj (hf.symm.trans hf')
  exact ⟨before, val, after, hp⟩

theorem add (h : WellFormed ql) (grow : Nat → Nat → Nat) (v : α) :
    WellFormed (QuickList.add grow ql v) := by
  have hsize := h.size_le
  by_cases hdata : ql.data = []
  · obtain ⟨helems, hadd⟩ := add_empty hdata grow v
    refine ⟨by simp [QuickList.add, hdata, pageSize], ?_⟩
    rw [helems, hadd]
    simp only [elems, hdata, elemsOf_nil, List.length_nil] at hsize
    simp only [List.length_cons, List.length_nil]
    omega
  · obtain ⟨pages, back, hb⟩ := (List.eq_nil_or_concat' ql.data).resolve_left hdata
    have hpages := h.pages
    simp only [hb, noEmptyPage_append, noEmptyPage_cons] at hpages
    simp only [elems, hb, elemsOf_append, elemsOf_cons, elemsOf_nil, List.length_append] at hsize
    have hlast : ql.data.getLast? = some back := by simp [hb]
    simp only [QuickList.add, if_neg hdata, hlast]
    split
    · refine ⟨by simp [hb, hpages.1, hpages.2.1], ?_⟩
      simp only [elems, hb, elemsOf_append, elemsOf_cons, elemsOf_nil, List.length_append,
        List.length_cons, List.length_nil] at hsize ⊢
      omega
    · refine ⟨by simp [hb, hpages.1], ?_⟩
      simp only [elems, hb, List.dropLast_concat, elemsOf_append, elemsOf_cons, elemsOf_nil,
        List.length_append, List.length_cons, List.length_nil] at hsize ⊢
      omega

theorem set (h : WellFormed ql) {index : Int} {v : α} {ql' : QuickList α}
    (hs : ql.set index v = some ql') : WellFormed ql' := by
  obtain ⟨iter, hf, hset⟩ := Option.bind_eq_some_iff.mp hs
  obtain ⟨before, val, after, hp⟩ := h.points_of_find hf
  obtain ⟨data', hset', helems, hpages⟩ := hp.set ql.size h.pages v
  obtain rfl := Option.some.inj (hset.symm.trans hset')
  have hsize := h.size_le
  rw [elems, hp.elems_eq] at hsize
  exact ⟨hpages, by rw [elems, helems]; simpa using hsize⟩

theorem insert (h : WellFormed ql) {grow : Nat → Nat → Nat} {index : Int} {v : α}
    {ql' : QuickList α} (hi : QuickList.insert grow ql index v = some ql') : WellFormed ql' := by
  by_cases hindex : index = ql.size
  · rw [QuickList.insert, if_pos hindex] at hi
    exact Option.some.inj hi ▸ h.add grow v
  · cases hf : QuickList.find ql index with
    | none => simp [QuickList.insert, hindex, hf] at hi
    | some iter =>
        obtain ⟨before, val, after, hp⟩ := h.points_of_find hf
        obtain ⟨data', hinsert, helems, hpages⟩ := hp.insert h.pages grow hindex hf v
        obtain rfl := Option.some.inj (hi.symm.trans hinsert)
        have hsize := h.size_le
        rw [elems, hp.elems_eq] at hsize
        refine ⟨hpages, ?_⟩
        rw [elems, helems]
        simp only [List.length_append, List.length_cons] at hsize ⊢
        omega

theorem removeAt (h : WellFormed ql) {iter iter' : Iterator} {val : α} {ql' : QuickList α}
    (hr : iter.remove ql = some (ql', iter', val)) : WellFormed ql' := by
  have hget : ∃ val, iter.get ql = some val := by
    rw [Iterator.remove] at hr
    obtain ⟨n, -, hr⟩ := Option.bind_eq_some_iff.mp hr
    obtain ⟨page, -, hr⟩ := Option.bind_eq_some_iff.mp hr
    obtain ⟨val, hget, -⟩ := Option.bind_eq_some_iff.mp hr
    exact ⟨val, hget⟩
  obtain ⟨val', hget⟩ := hget
  obtain ⟨before, after, hp⟩ := points_of_get hget
  obtain ⟨data', iter'', hr', helems, hpages⟩ := hp.remove ql.size h.pages
  obtain ⟨rfl, -⟩ := Prod.mk.inj (Option.some.inj (hr.symm.trans hr'))
  have hsize := h.size_le
  rw [elems, hp.elems_eq] at hsize
  refine ⟨hpages, ?_⟩
  rw [elems, helems]
  simp only [List.length_append, List.length_cons] at hsize ⊢
  omega

theorem remove (h : WellFormed ql) {index : Int} {p : QuickList α × α}
    (hr : ql.remove index = some p) : WellFormed p.1 := by
  obtain ⟨iter, -, hp⟩ := Option.bind_eq_some_iff.mp hr
  obtain ⟨⟨ql', iter', val⟩, hremove, rfl⟩ := Option.map_eq_some_iff.mp hp
  exact h.removeAt hremove

theorem removeLast (h : WellFormed ql) : WellFormed ql.removeLast.1 := by
  have hsize := h.size_le
  rw [QuickList.removeLast]
  split
  · exact h
  · cases hl : ql.data.getLast? with
    | none =>
        simp only [hl]
        refine ⟨h.pages, ?_⟩
        simp only [elems] at hsize ⊢
        omega
    | some last =>
        obtain ⟨pages, hd⟩ : ∃ pages, ql.data = pages ++ [last] :=
          List.getLast?_eq_some_iff.mp hl
        have hpages := h.pages
        simp only [hd, noEmptyPage_append, noEmptyPage_cons] at hpages
        simp only [elems, hd, elemsOf_append, elemsOf_cons, elemsOf_nil, List.append_nil,
          List.length_append] at hsize
        cases hv : last.elems.getLast? with
        | none => exact absurd (List.getLast?_eq_none_iff.mp hv) hpages.2.1
        | some val =>
            obtain ⟨l, hval⟩ := List.getLast?_eq_some_iff.mp hv
            rw [hval] at hsize
            simp only [hl, hv]
            split
            · rename_i hlen
              rw [← hval, hlen] at hsize
              refine ⟨by simp [hd, hpages.1], ?_⟩
              simp only [elems, hd, List.dropLast_concat]
              omega
            · rename_i hlen
              refine ⟨?_, ?_⟩
              · simp only [hd, List.dropLast_concat, noEmptyPage_append, noEmptyPage_cons,
                  noEmptyPage_nil, and_true, hval]
                refine ⟨hpages.1, ?_⟩
                rintro rfl
                simp [hval] at hlen
              · simp only [elems, hd, hval, List.dropLast_concat, elemsOf_append, elemsOf_cons,
                  elemsOf_nil, List.append_nil, List.length_append, List.length_cons,
                  List.length_nil] at hsize ⊢
                omega

theorem removeAllLoop (expected : α → Bool) (fuel : Nat) {ql : QuickList α} (h : WellFormed ql)
    (iter : Iterator) (removed : Nat) :
    WellFormed (QuickList.removeAllLoop expected fuel ql iter removed).1 := by
  induction fuel generalizing ql iter removed with
  | zero => exact h
  | succ fuel ih =>
      rw [QuickList.removeAllLoop]
      split
      · exact h
      · exact h
      · exact h
      · split
        · split
          · exact h
          · rename_i hr
            exact ih (h.removeAt hr) _ _
        · split
          · exact h
          · exact ih h _ _

theorem removeLoop (expected : α → Bool) (count : Int) (fuel : Nat) {ql : QuickList α}
    (h : WellFormed ql) (iter : Iterator) (removed : Nat) :
    WellFormed (QuickList.removeLoop expected count fuel ql iter removed).1 := by
  induction fuel generalizing ql iter removed with
  | zero => exact h
  | succ fuel ih =>
      rw [QuickList.removeLoop]
      split
      · exact h
      · exact h
      · exact h
      · split
        · split
          · exact h
          · rename_i hr
            split
            · exact h.removeAt hr
            · exact ih (h.removeAt hr) _ _
        · split
          · exact h
          · exact ih h _ _

theorem reverseRemoveLoop (expected : α → Bool) (count : Int) (fuel : Nat) {ql : QuickList α}
    (h : WellFormed ql) (iter : Iterator) (removed : Nat) :
    WellFormed (QuickList.reverseRemoveLoop expected count fuel ql iter removed).1 := by
  induction fuel generalizing ql iter removed with
  | zero => exact h
  | succ fuel ih =>
      rw [QuickList.reverseRemoveLoop]
      split
      · exact h
      · split
        · exact h
        · split
          · split
            · exact h
            · rename_i hr
              split
              · exact h.removeAt hr
              · split
                · exact h.removeAt hr
                · exact ih (h.removeAt hr) _ _
          · split
            · exact h
            · exact ih h _ _

theorem removeAllByVal (h : WellFormed ql) (expected : α → Bool) :
    WellFormed (ql.removeAllByVal expected).1 := by
  rw [QuickList.removeAllByVal]
  split
  · exact h
  · exact h.removeAllLoop _ _ _ _

theorem removeByVal (h : WellFormed ql) (expected : α → Bool) (count : Int) :
    WellFormed (ql.removeByVal expected count).1 := by
  rw [QuickList.removeByVal]
  split
  · exact h
  · split
    · exact h
    · exact h.removeLoop _ _ _ _ _

theorem reverseRemoveByVal (h : WellFormed ql) (expected : α → Bool) (count : Int) :
    WellFormed (ql.reverseRemoveByVal expected count).1 := by
  rw [QuickList.reverseRemoveByVal]
  split
  · exact h
  · split
    · exact h
    · exact h.reverseRemoveLoop _ _ _ _ _

end WellFormed

end QuickList

structure StoredList (α : Type) where
  list : QuickList α
  wellFormed : list.WellFormed

namespace StoredList

variable {α : Type} (l : StoredList α)

def newQuickList : StoredList α := ⟨.newQuickList, QuickList.newQuickList_wellFormed⟩

def size : Int := l.list.size

def get (index : Int) : Option α := l.list.get index

def range (start stop : Int) : Option (List α) := l.list.range start stop

def add (grow : Nat → Nat → Nat) (v : α) : StoredList α :=
  ⟨l.list.add grow v, l.wellFormed.add grow v⟩

def set (index : Int) (v : α) : Option (StoredList α) :=
  (l.list.set index v).pmap .mk fun _ => l.wellFormed.set

def insert (grow : Nat → Nat → Nat) (index : Int) (v : α) : Option (StoredList α) :=
  (l.list.insert grow index v).pmap .mk fun _ => l.wellFormed.insert

def remove (index : Int) : Option (StoredList α × α) :=
  (l.list.remove index).pmap (fun p h => (⟨p.1, h⟩, p.2)) fun _ => l.wellFormed.remove

def removeLast : StoredList α × Option (Option α) :=
  (⟨l.list.removeLast.1, l.wellFormed.removeLast⟩, l.list.removeLast.2)

def removeAllByVal (expected : α → Bool) : StoredList α × Option Nat :=
  (⟨(l.list.removeAllByVal expected).1, l.wellFormed.removeAllByVal expected⟩,
    (l.list.removeAllByVal expected).2)

def removeByVal (expected : α → Bool) (count : Int) : StoredList α × Option Nat :=
  (⟨(l.list.removeByVal expected count).1, l.wellFormed.removeByVal expected count⟩,
    (l.list.removeByVal expected count).2)

def reverseRemoveByVal (expected : α → Bool) (count : Int) : StoredList α × Option Nat :=
  (⟨(l.list.reverseRemoveByVal expected count).1,
    l.wellFormed.reverseRemoveByVal expected count⟩, (l.list.reverseRemoveByVal expected count).2)

variable {l}

@[simp] theorem newQuickList_size : (newQuickList : StoredList α).size = 0 := rfl

theorem insert_front (h : 0 ≤ l.size) (grow : Nat → Nat → Nat) (v : α) :
    ∃ l', l.insert grow 0 v = some l' ∧ l'.size = l.size + 1 := by
  have hinsert : ∃ ql, l.list.insert grow 0 v = some ql ∧ ql.size = l.size + 1 := by
    by_cases hzero : 0 = l.list.size
    · refine ⟨_, if_pos hzero, ?_⟩
      rw [QuickList.add]
      split
      · rfl
      · split <;> rfl
    · have hpos : 0 ≤ l.list.size := h
      obtain ⟨iter, before, val, after, hf, hp⟩ := l.wellFormed.find (Int.le_refl 0) (by omega)
      obtain ⟨data', hinsert, -, -⟩ := hp.insert l.wellFormed.pages grow hzero hf v
      exact ⟨_, hinsert, rfl⟩
  obtain ⟨ql, hql, hsize⟩ := hinsert
  exact ⟨⟨ql, l.wellFormed.insert hql⟩, by simp [insert, hql], hsize⟩

theorem insert_front_none (h : l.size < 0) (grow : Nat → Nat → Nat) (v : α) :
    l.insert grow 0 v = none := by
  have hsize : l.list.size < 0 := h
  have hinsert : l.list.insert grow 0 v = none := by
    rw [QuickList.insert, if_neg (by omega), QuickList.find, if_pos (by omega)]
    rfl
  simp [insert, hinsert]

/-- The positions that the size promises are there, whatever the pages hold. -/
theorem range_length {b e : Int} (hlow : 0 ≤ b) (hhigh : b < l.size)
    (hle : b ≤ e) (hstop : e ≤ l.size) : ∃ listed, l.range b e = some listed ∧ (listed.length : Int) = e - b := by
  have hsize : l.list.size ≤ QuickList.total l.list := by
    rw [QuickList.total_eq]
    exact l.wellFormed.size_le
  obtain ⟨iter, before, val, after, hfind, hp, hbefore⟩ := QuickList.find_points hsize hlow hhigh
  have htotal : (QuickList.total l.list : Int) = before.length + (val :: after).length := by
    rw [QuickList.total_eq, QuickList.elems, hp.elems_eq]
    simp
  have hafter : (e - b).toNat ≤ (val :: after).length := by
    rw [size] at hhigh hstop
    split at hbefore <;> omega
  refine ⟨(val :: after).take (e - b).toNat, ?_, ?_⟩
  · rw [range, QuickList.range, if_neg, if_neg, hfind, Option.bind_some]
    · exact QuickList.rangeLoop_take hp l.wellFormed.pages hafter
    · exact not_or.mpr ⟨by omega, Int.not_lt.mpr hstop⟩
    · exact not_or.mpr ⟨by omega, Int.not_le.mpr hhigh⟩
  · rw [List.length_take, Nat.min_eq_left hafter]
    omega

end StoredList

end Traitor
