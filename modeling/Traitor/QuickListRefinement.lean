import Mathlib.Data.List.Induction
import Traitor.QuickList

namespace Traitor.QuickList

variable {α β : Type}

def elemsOf (data : List (Page α)) : List α := (data.map Page.elems).flatten

def elems (ql : QuickList α) : List α := elemsOf ql.data

@[simp] theorem elemsOf_nil : elemsOf ([] : List (Page α)) = [] := rfl

@[simp] theorem elemsOf_cons (page : Page α) (pages : List (Page α)) :
    elemsOf (page :: pages) = page.elems ++ elemsOf pages := rfl

@[simp] theorem elemsOf_append (pages pages' : List (Page α)) :
    elemsOf (pages ++ pages') = elemsOf pages ++ elemsOf pages' := by
  simp [elemsOf]

theorem total_eq (ql : QuickList α) : total ql = (elems ql).length := by
  simp [total, elems, elemsOf, Function.comp_def]

def NoEmptyPage (data : List (Page α)) : Prop := ∀ page ∈ data, page.elems ≠ []

@[simp] theorem noEmptyPage_nil : NoEmptyPage ([] : List (Page α)) := by simp [NoEmptyPage]

@[simp] theorem noEmptyPage_cons (page : Page α) (pages : List (Page α)) :
    NoEmptyPage (page :: pages) ↔ page.elems ≠ [] ∧ NoEmptyPage pages := by
  simp [NoEmptyPage]

@[simp] theorem noEmptyPage_append (pages pages' : List (Page α)) :
    NoEmptyPage (pages ++ pages') ↔ NoEmptyPage pages ∧ NoEmptyPage pages' := by
  simp [NoEmptyPage, or_imp, forall_and]

def Points (data : List (Page α)) (iter : Iterator) (before : List α) (val : α)
    (after : List α) : Prop :=
  ∃ pre cap post left right, data = pre ++ ⟨left ++ val :: right, cap⟩ :: post ∧
    iter = ⟨some pre.length, left.length⟩ ∧ before = elemsOf pre ++ left ∧
    after = right ++ elemsOf post

theorem points_of_lt (pre post : List (Page α)) {page : Page α} {i : Nat}
    (hi : i < page.elems.length) :
    ∃ val after, Points (pre ++ page :: post) ⟨some pre.length, i⟩
      (elemsOf pre ++ page.elems.take i) val after :=
  ⟨page.elems[i], _, pre, page.cap, post, page.elems.take i, page.elems.drop (i + 1),
    by simp, by simp [Nat.min_eq_left (Nat.le_of_lt hi)], rfl, rfl⟩

theorem Points.elems_eq {data : List (Page α)} {iter : Iterator} {before after : List α} {val : α}
    (h : Points data iter before val after) : elemsOf data = before ++ val :: after := by
  obtain ⟨pre, cap, post, left, right, rfl, rfl, rfl, rfl⟩ := h
  simp

theorem findFront_points (i : Nat) (pre pages : List (Page α))
    (hlow : (elemsOf pre).length ≤ i) (hhigh : i < (elemsOf (pre ++ pages)).length) :
    ∃ iter before val after, findFront i pages pre.length (elemsOf pre).length = some iter ∧
      Points (pre ++ pages) iter before val after ∧ before.length = i := by
  induction pages generalizing pre with
  | nil =>
      rw [List.append_nil] at hhigh
      omega
  | cons page pages ih =>
      rw [findFront]
      by_cases hp : i < (elemsOf pre).length + page.elems.length
      · have hi : i - (elemsOf pre).length < page.elems.length := by omega
        obtain ⟨val, after, hpt⟩ := points_of_lt pre pages hi
        rw [Int.ofNat_sub hlow] at hpt
        rw [if_pos (by omega)]
        refine ⟨_, _, val, after, rfl, hpt, ?_⟩
        simp only [List.length_append, List.length_take]
        omega
      · rw [if_neg (by omega)]
        obtain ⟨iter, before, val, after, hf, hpt, hl⟩ := ih (pre ++ [page])
          (by simp; omega) (by simpa using hhigh)
        refine ⟨iter, before, val, after, ?_, by simpa using hpt, hl⟩
        simpa using hf

/-- Counted from the back, an index is shifted by the elements the size misses. -/
theorem findBack_points (pages post : List (Page α)) (i pageBeg : Int)
    (hlow : pageBeg - (elemsOf pages).length ≤ i) (hhigh : i < pageBeg) :
    ∃ iter before val after, findBack i pages.reverse pageBeg = some iter ∧
      Points (pages ++ post) iter before val after ∧
      (before.length : Int) = (elemsOf pages).length - pageBeg + i := by
  induction pages using List.reverseRecOn generalizing post pageBeg with
  | nil =>
      simp only [elemsOf_nil, List.length_nil] at hlow
      omega
  | append_singleton pages page ih =>
      rw [List.reverse_append, List.reverse_singleton, List.singleton_append, findBack]
      by_cases hp : pageBeg - page.elems.length ≤ i
      · obtain ⟨k, hk⟩ := Int.eq_ofNat_of_zero_le (Int.sub_nonneg.mpr hp)
        have hi : k < page.elems.length := by omega
        obtain ⟨val, after, hpt⟩ := points_of_lt pages post hi
        rw [if_pos hp, List.length_reverse, hk]
        refine ⟨_, _, val, after, rfl, by simpa using hpt, ?_⟩
        simp only [List.length_append, List.length_take, elemsOf_append, elemsOf_cons, elemsOf_nil,
          List.append_nil]
        omega
      · rw [if_neg hp]
        obtain ⟨iter, before, val, after, hf, hpt, hl⟩ := ih (page :: post)
          (pageBeg - page.elems.length)
          (by simp at hlow; omega) (by omega)
        refine ⟨iter, before, val, after, hf, by simpa using hpt, ?_⟩
        simp only [elemsOf_append, elemsOf_cons, elemsOf_nil, List.append_nil, List.length_append]
        omega

/-- As long as the pages hold as many elements as the size says, every index is found. -/
theorem find_points {ql : QuickList α} (h : ql.size ≤ total ql) {index : Int} (hlow : 0 ≤ index)
    (hhigh : index < ql.size) :
    ∃ iter before val after, find ql index = some iter ∧
      Points ql.data iter before val after ∧
      (before.length : Int) = if index < ql.size.tdiv 2 then index
        else total ql - ql.size + index := by
  rw [total_eq] at h ⊢
  rw [find, if_neg (by omega)]
  by_cases hi : index < ql.size.tdiv 2
  · have hd : ql.size.tdiv 2 ≤ ql.size := Int.tdiv_le_self _ (by omega)
    obtain ⟨i, rfl⟩ := Int.eq_ofNat_of_zero_le hlow
    rw [if_pos hi, if_pos hi]
    obtain ⟨iter, before, val, after, hf, hp, hl⟩ := findFront_points i [] ql.data (by simp)
      (by simp only [List.nil_append]; unfold elems at h; omega)
    exact ⟨iter, before, val, after, hf, hp, by rw [hl]⟩
  · rw [if_neg hi, if_neg hi]
    obtain ⟨iter, before, val, after, hf, hp, hl⟩ := findBack_points ql.data [] index ql.size
      (by unfold elems at h; omega) hhigh
    exact ⟨iter, before, val, after, hf, by simpa using hp, by unfold elems; omega⟩

section

variable {data : List (Page α)} {iter : Iterator} {before after : List α} {val : α} {size : Int}

theorem Points.get (h : Points data iter before val after) (size : Int) :
    iter.get ⟨data, size⟩ = some val := by
  obtain ⟨pre, cap, post, left, right, rfl, rfl, rfl, rfl⟩ := h
  simp [Iterator.get, Iterator.page]

theorem Points.next_last (h : Points data iter before val []) (size : Int)
    (hpages : NoEmptyPage data) :
    ∃ iter', iter.next ⟨data, size⟩ = some (iter', false) := by
  obtain ⟨pre, cap, post, left, right, rfl, rfl, rfl, hafter⟩ := h
  obtain ⟨rfl, hpost⟩ := List.append_eq_nil_iff.mp hafter.symm
  cases post with
  | nil => simp [Iterator.next, Iterator.page, Iterator.back]
  | cons page post =>
      have hne := hpages page (by simp)
      simp [hne] at hpost

theorem Points.next {a : α} (h : Points data iter before val (a :: after)) (size : Int)
    (hpages : NoEmptyPage data) :
    ∃ iter', iter.next ⟨data, size⟩ = some (iter', true) ∧
      Points data iter' (before ++ [val]) a after := by
  obtain ⟨pre, cap, post, left, right, rfl, rfl, rfl, hafter⟩ := h
  cases right with
  | cons r right =>
      obtain ⟨rfl, rfl⟩ := List.cons.inj hafter
      refine ⟨⟨some pre.length, (left ++ [val]).length⟩, ?_,
        ⟨pre, cap, post, left ++ [val], right, by simp, rfl, by simp, rfl⟩⟩
      have hlt : (left.length : Int) < (left ++ val :: a :: right).length - 1 := by
        simp only [List.length_append, List.length_cons]
        omega
      have hpage : Iterator.page ⟨some pre.length, left.length⟩
          ⟨pre ++ ⟨left ++ val :: a :: right, cap⟩ :: post, size⟩ =
          some ⟨left ++ val :: a :: right, cap⟩ := by simp [Iterator.page]
      rw [Iterator.next, hpage, Option.map_some, if_pos hlt]
      simp
  | nil =>
      cases post with
      | nil => simp at hafter
      | cons page post =>
          obtain ⟨r, right, hr⟩ := List.exists_cons_of_ne_nil (hpages page (by simp))
          rw [List.nil_append, elemsOf_cons, hr, List.cons_append] at hafter
          obtain ⟨rfl, rfl⟩ := List.cons.inj hafter
          refine ⟨⟨some (pre.length + 1), 0⟩, ?_,
            ⟨pre ++ [⟨left ++ [val], cap⟩], page.cap, post, [], right, by simp [← hr], by simp,
              by simp, rfl⟩⟩
          simp [Iterator.next, Iterator.page, Iterator.back]

theorem Points.set (h : Points data iter before val after) (size : Int)
    (hpages : NoEmptyPage data) (v : α) :
    ∃ data', iter.set ⟨data, size⟩ v = some ⟨data', size⟩ ∧
      elemsOf data' = before ++ v :: after ∧ NoEmptyPage data' := by
  obtain ⟨pre, cap, post, left, right, rfl, rfl, rfl, rfl⟩ := h
  refine ⟨pre ++ ⟨left ++ v :: right, cap⟩ :: post, ?_, by simp, ?_⟩
  · simp only [Iterator.set, Option.bind_eq_bind, Option.bind_some, Int.natCast_nonneg, true_and,
      Int.toNat_natCast]
    simp
  · simp only [noEmptyPage_append, noEmptyPage_cons] at hpages ⊢
    exact ⟨hpages.1, by simp, hpages.2.2⟩

theorem eraseIdx_append_length (l r : List β) (v : β) :
    (l ++ v :: r).eraseIdx l.length = l ++ r := by
  rw [List.eraseIdx_append_of_length_le (Nat.le_refl _), Nat.sub_self, List.eraseIdx_cons_zero]

theorem insertIdx_append_length (l r : List α) (v : α) :
    (l ++ r).insertIdx l.length v = l ++ v :: r := by
  induction l with
  | nil => simp
  | cons a l ih => simp [ih]

theorem Points.remove (h : Points data iter before val after) (size : Int)
    (hpages : NoEmptyPage data) :
    ∃ data' iter', iter.remove ⟨data, size⟩ = some (⟨data', size - 1⟩, iter', val) ∧
      elemsOf data' = before ++ after ∧ NoEmptyPage data' := by
  have hget := h.get size
  obtain ⟨pre, cap, post, left, right, rfl, rfl, rfl, rfl⟩ := h
  have hpage : (pre ++ ⟨left ++ val :: right, cap⟩ :: post)[pre.length]? =
      some ⟨left ++ val :: right, cap⟩ := by simp
  have hset : (pre ++ ⟨left ++ val :: right, cap⟩ :: post).set pre.length ⟨left ++ right, cap⟩ =
      pre ++ ⟨left ++ right, cap⟩ :: post := by simp
  simp only [Iterator.remove, Option.bind_eq_bind, Option.bind_some, hpage, hget,
    Int.toNat_natCast, eraseIdx_append_length, hset]
  by_cases hnil : left ++ right = []
  · obtain ⟨rfl, rfl⟩ := List.append_eq_nil_iff.mp hnil
    have hrest : NoEmptyPage (pre ++ post) := by
      simp only [noEmptyPage_append, noEmptyPage_cons] at hpages ⊢
      exact ⟨hpages.1, hpages.2.2⟩
    rw [if_neg (by simp)]
    split
    · exact ⟨_, _, rfl, by simp, hrest⟩
    · exact ⟨_, _, rfl, by simp, hrest⟩
  · have hrest : NoEmptyPage (pre ++ ⟨left ++ right, cap⟩ :: post) := by
      simp only [noEmptyPage_append, noEmptyPage_cons] at hpages ⊢
      exact ⟨hpages.1, hnil, hpages.2.2⟩
    rw [if_pos hnil]
    exact ⟨_, _, rfl, by simp, hrest⟩

theorem Points.insert (h : Points data iter before val after) (hpages : NoEmptyPage data)
    (grow : Nat → Nat → Nat) {index : Int} (hi : index ≠ size)
    (hf : find ⟨data, size⟩ index = some iter) (v : α) :
    ∃ data', insert grow ⟨data, size⟩ index v = some ⟨data', size + 1⟩ ∧
      elemsOf data' = before ++ v :: val :: after ∧ NoEmptyPage data' := by
  obtain ⟨pre, cap, post, left, right, rfl, rfl, rfl, rfl⟩ := h
  have hpage : (pre ++ ⟨left ++ val :: right, cap⟩ :: post)[pre.length]? =
      some ⟨left ++ val :: right, cap⟩ := by simp
  simp only [noEmptyPage_append, noEmptyPage_cons] at hpages
  obtain ⟨hpre, -, hpost⟩ := hpages
  have hoff : ¬ ((left.length : Int) < 0 ∨
      ((left ++ val :: right).length : Int) < left.length) := by
    simp only [List.length_append, List.length_cons]
    omega
  simp only [QuickList.insert, if_neg hi, hf, Option.bind_eq_bind, Option.bind_some, hpage,
    if_neg hoff, Int.toNat_natCast]
  by_cases hfull : (left ++ val :: right).length < pageSize
  · have hset (page : Page α) : (pre ++ ⟨left ++ val :: right, cap⟩ :: post).set pre.length page =
        pre ++ page :: post := by simp
    rw [if_pos hfull, insertIdx_append_length, hset]
    refine ⟨_, rfl, by simp, ?_⟩
    simp only [noEmptyPage_append, noEmptyPage_cons]
    exact ⟨hpre, by simp, hpost⟩
  · have htake : (pre ++ ⟨left ++ val :: right, cap⟩ :: post).take pre.length = pre := by simp
    have hdrop : (pre ++ ⟨left ++ val :: right, cap⟩ :: post).drop (pre.length + 1) = post := by
      simp
    rw [if_neg hfull, htake, hdrop]
    have hlen : pageSize / 2 < (left ++ val :: right).length := by
      simp only [pageSize] at hfull ⊢
      omega
    have hhalf : ((left ++ val :: right).take (pageSize / 2)).length = pageSize / 2 := by
      rw [List.length_take]
      omega
    have hjoin := List.take_append_drop (pageSize / 2) (left ++ val :: right)
    have hrest : (left ++ val :: right).drop (pageSize / 2) ≠ [] := by
      rw [ne_eq, List.drop_eq_nil_iff]
      omega
    by_cases hleft : left.length < pageSize / 2
    · have hsplit : (left ++ val :: right).take (pageSize / 2) =
          left ++ (val :: right).take (pageSize / 2 - left.length) := by
        rw [List.take_append, List.take_of_length_le (Nat.le_of_lt hleft)]
      rw [if_pos (by omega)]
      refine ⟨_, rfl, ?_, ?_⟩
      · rw [hsplit, List.append_assoc, List.append_cancel_left_eq] at hjoin
        rw [hsplit, insertIdx_append_length]
        simp only [elemsOf_append, elemsOf_cons, List.append_assoc, List.cons_append]
        rw [← List.append_assoc _ _ (elemsOf post), hjoin, List.cons_append]
      · simp only [noEmptyPage_append, noEmptyPage_cons]
        refine ⟨hpre, ?_, hrest, hpost⟩
        rw [hsplit, insertIdx_append_length]
        simp
    · have hsplit : (left ++ val :: right).drop (pageSize / 2) =
          left.drop (pageSize / 2) ++ val :: right := by
        rw [List.drop_append_of_le_length (Nat.le_of_not_lt hleft)]
      have htakeLeft : (left ++ val :: right).take (pageSize / 2) = left.take (pageSize / 2) := by
        rw [List.take_append_of_le_length (Nat.le_of_not_lt hleft)]
      have hoffset : left.length - pageSize / 2 = (left.drop (pageSize / 2)).length := by simp
      rw [if_neg (by omega)]
      refine ⟨_, rfl, ?_, ?_⟩
      · rw [hoffset, hsplit, insertIdx_append_length, htakeLeft]
        simp only [elemsOf_append, elemsOf_cons, List.append_assoc, List.cons_append]
        rw [← List.append_assoc (left.take _), List.take_append_drop]
      · simp only [noEmptyPage_append, noEmptyPage_cons]
        refine ⟨hpre, ?_, ?_, hpost⟩
        · rw [← List.length_pos_iff_ne_nil, hhalf]
          decide
        · rw [hoffset, hsplit, insertIdx_append_length]
          simp

end

/-- The pages hold the elements of `l`, none of them is empty and the size is right. -/
structure Represents (ql : QuickList α) (l : List α) : Prop where
  elems : elems ql = l
  size : ql.size = l.length
  pages : NoEmptyPage ql.data

theorem newQuickList_represents : Represents (newQuickList : QuickList α) [] :=
  ⟨rfl, rfl, noEmptyPage_nil⟩

section

variable {ql : QuickList α} {l : List α}

theorem Represents.data_eq_nil (h : Represents ql l) : ql.data = [] ↔ l = [] := by
  rw [← h.elems]
  cases hd : ql.data with
  | nil => simp [QuickList.elems, hd]
  | cons page pages =>
      have hp := h.pages
      rw [hd, noEmptyPage_cons] at hp
      simp [QuickList.elems, hd, hp.1]

/-- At an index in range the list is found, from whichever end it is counted. -/
theorem Represents.find (h : Represents ql l) {i : Nat} (hi : i < l.length) :
    ∃ iter before val after, find ql i = some iter ∧ Points ql.data iter before val after ∧
      before.length = i ∧ l = before ++ val :: after := by
  have htotal : (total ql : Int) = ql.size := by rw [total_eq, h.elems, h.size]
  have hsize := h.size
  obtain ⟨iter, before, val, after, hf, hp, hl⟩ := find_points
    (show ql.size ≤ total ql by omega) (show (0 : Int) ≤ i by omega) (by omega)
  refine ⟨iter, before, val, after, hf, hp, ?_, h.elems.symm.trans hp.elems_eq⟩
  split at hl <;> omega

theorem Represents.add (h : Represents ql l) (hl : l ≠ []) (grow : Nat → Nat → Nat) (v : α) :
    Represents (add grow ql v) (l ++ [v]) := by
  have hdata : ql.data ≠ [] := fun hd => hl (h.data_eq_nil.mp hd)
  obtain ⟨pages, back, hb⟩ := (List.eq_nil_or_concat' ql.data).resolve_left hdata
  have helems : elemsOf pages ++ back.elems = l := by
    simpa [QuickList.elems, hb] using h.elems
  have hpages := h.pages
  simp only [hb, noEmptyPage_append, noEmptyPage_cons] at hpages
  have hlast : ql.data.getLast? = some back := by simp [hb]
  simp only [QuickList.add, if_neg hdata, hlast]
  by_cases hfull : back.elems.length = back.cap
  · rw [if_pos hfull]
    refine ⟨?_, by simp [h.size], ?_⟩
    · simp [QuickList.elems, hb, ← helems]
    · simp [hb, hpages.1, hpages.2.1]
  · rw [if_neg hfull]
    refine ⟨?_, by simp [h.size], ?_⟩
    · simp [QuickList.elems, hb, ← helems]
    · simp [hb, hpages.1]

/-- The value is put into the new page twice. -/
theorem add_empty {ql : QuickList α} (h : ql.data = []) (grow : Nat → Nat → Nat) (v : α) :
    elems (add grow ql v) = [v, v] ∧ (add grow ql v).size = ql.size + 1 := by
  simp [add, h, pageSize, elems]

theorem Represents.removeLast (h : Represents ql l) :
    ∃ ql', removeLast ql = (ql', some l.getLast?) ∧ Represents ql' l.dropLast := by
  rcases List.eq_nil_or_concat' ql.data with hb | ⟨pages, back, hb⟩
  · have hl := h.data_eq_nil.mp hb
    subst hl
    have hsize : ql.size = 0 := h.size
    exact ⟨ql, by simp [QuickList.removeLast, hsize], by simpa using h⟩
  · have hpages := h.pages
    simp only [hb, noEmptyPage_append, noEmptyPage_cons] at hpages
    obtain ⟨init, val, hv⟩ := (List.eq_nil_or_concat' back.elems).resolve_left hpages.2.1
    have hl : l = elemsOf pages ++ init ++ [val] := by
      simpa [QuickList.elems, hb, hv] using h.elems.symm
    have hsize : ql.size ≠ 0 := by
      simp only [h.size, hl, List.length_append, List.length_singleton]
      omega
    have hlast : ql.data.getLast? = some back := by simp [hb]
    have hval : back.elems.getLast? = some val := by simp [hv]
    simp only [QuickList.removeLast, if_neg hsize, hlast, hval]
    by_cases hone : back.elems.length = 1
    · have hnil : init = [] := by simpa [hv] using hone
      rw [if_pos hone]
      refine ⟨⟨pages, ql.size - 1⟩, by simp [hl, hb], ?_, by simp [h.size, hl, hnil], hpages.1⟩
      simp [QuickList.elems, hl, hnil]
    · have hne : init ≠ [] := by
        intro hn
        simp [hv, hn] at hone
      rw [if_neg hone]
      refine ⟨⟨pages ++ [⟨init, back.cap⟩], ql.size - 1⟩, by simp [hl, hb, hv], ?_,
        by simp [h.size, hl]; omega, by simp [hpages.1, hne]⟩
      simp [QuickList.elems, hl]

theorem Represents.get (h : Represents ql l) {i : Nat} (hi : i < l.length) :
    get ql i = l[i]? := by
  obtain ⟨iter, before, val, after, hf, hp, rfl, rfl⟩ := h.find hi
  rw [QuickList.get, hf, Option.bind_some, hp.get ql.size]
  simp

theorem Represents.set (h : Represents ql l) {i : Nat} (hi : i < l.length) (v : α) :
    ∃ ql', set ql i v = some ql' ∧ Represents ql' (l.set i v) := by
  obtain ⟨iter, before, val, after, hf, hp, rfl, rfl⟩ := h.find hi
  obtain ⟨data, hs, he, hpages⟩ := hp.set ql.size h.pages v
  refine ⟨⟨data, ql.size⟩, by rw [QuickList.set, hf, Option.bind_some, hs], ?_, ?_, hpages⟩
  · rw [QuickList.elems, he]
    simp
  · simpa using h.size

theorem Represents.remove (h : Represents ql l) {i : Nat} (hi : i < l.length) :
    ∃ ql', remove ql i = some (ql', l[i]) ∧ Represents ql' (l.eraseIdx i) := by
  obtain ⟨iter, before, val, after, hf, hp, rfl, rfl⟩ := h.find hi
  obtain ⟨data, iter', hr, he, hpages⟩ := hp.remove ql.size h.pages
  refine ⟨⟨data, ql.size - 1⟩, ?_, ?_, ?_, hpages⟩
  · rw [QuickList.remove, hf, Option.bind_some, hr]
    simp
  · rw [eraseIdx_append_length]
    exact he
  · rw [eraseIdx_append_length]
    simp only [h.size, List.length_append, List.length_cons]
    omega

theorem Represents.insert (h : Represents ql l) (grow : Nat → Nat → Nat) {i : Nat}
    (hi : i < l.length) (v : α) :
    ∃ ql', insert grow ql i v = some ql' ∧ Represents ql' (l.insertIdx i v) := by
  have hsize := h.size
  obtain ⟨iter, before, val, after, hf, hp, rfl, rfl⟩ := h.find hi
  obtain ⟨data, hs, he, hpages⟩ := hp.insert h.pages grow (by omega) hf v
  refine ⟨⟨data, ql.size + 1⟩, hs, ?_, ?_, hpages⟩
  · rw [insertIdx_append_length]
    exact he
  · rw [insertIdx_append_length]
    simp only [hsize, List.length_append, List.length_cons]
    omega

/-- The elements a consumer sees that is asked after each one whether to go on. -/
def visits (consumer : Nat → α → Bool) : Nat → List α → List α
  | _, [] => []
  | i, val :: l => if consumer i val then val :: visits consumer (i + 1) l else [val]

theorem forEachLoop_visits (consumer : Nat → α → Bool) {iter : Iterator} {before : List α} {val : α}
    {after : List α} (h : Points ql.data iter before val after) (hpages : NoEmptyPage ql.data)
    {fuel : Nat} (hfuel : after.length < fuel) (i : Nat) :
    forEachLoop consumer ql fuel iter i = some (visits consumer i (val :: after)) := by
  induction after generalizing iter before val fuel i with
  | nil =>
      obtain ⟨fuel, rfl⟩ := Nat.exists_eq_succ_of_ne_zero (Nat.ne_of_gt hfuel)
      obtain ⟨iter', hn⟩ := h.next_last ql.size hpages
      have hg := h.get ql.size
      cases hc : consumer i val <;> simp [forEachLoop, hg, hn, hc, visits]
  | cons a after ih =>
      obtain ⟨fuel, rfl⟩ := Nat.exists_eq_succ_of_ne_zero (Nat.ne_of_gt (Nat.zero_lt_of_lt hfuel))
      obtain ⟨iter', hn, hp⟩ := h.next ql.size hpages
      have hg := h.get ql.size
      have hrest := ih hp (Nat.lt_of_succ_lt_succ hfuel) (i + 1)
      cases hc : consumer i val <;> simp [forEachLoop, hg, hn, hc, visits, hrest]

theorem rangeLoop_take {iter : Iterator} {before : List α} {val : α} {after : List α}
    (h : Points ql.data iter before val after) (hpages : NoEmptyPage ql.data) {n : Nat}
    (hn : n ≤ (val :: after).length) :
    rangeLoop ql n iter = some ((val :: after).take n) := by
  induction after generalizing iter before val n with
  | nil =>
      obtain ⟨iter', hnext⟩ := h.next_last ql.size hpages
      have hg := h.get ql.size
      rcases Nat.le_one_iff_eq_zero_or_eq_one.mp hn with rfl | rfl
      · rfl
      · simp [rangeLoop, hg, hnext]
  | cons a after ih =>
      obtain ⟨iter', hnext, hp⟩ := h.next ql.size hpages
      have hg := h.get ql.size
      cases n with
      | zero => rfl
      | succ n =>
          have hrest := ih hp (Nat.le_of_succ_le_succ hn)
          simp [rangeLoop, hg, hnext, hrest]

theorem Represents.forEach (h : Represents ql l) (consumer : Nat → α → Bool) :
    forEach ql consumer = some (visits consumer 0 l) := by
  cases hl : l with
  | nil =>
      have hsize : ql.size = 0 := by simp [h.size, hl]
      simp [QuickList.forEach, hsize, visits]
  | cons a as =>
      have hsize : ql.size ≠ 0 := by simp [h.size, hl]; omega
      obtain ⟨iter, before, val, after, hf, hp, hb, he⟩ := h.find (i := 0) (by simp [hl])
      rw [List.length_eq_zero_iff.mp hb, List.nil_append, hl] at he
      obtain ⟨rfl, rfl⟩ := List.cons.inj he
      have hfuel : as.length < passes ql := by
        rw [passes, total_eq, h.elems, hl, List.length_cons]
        omega
      have hf' : QuickList.find ql 0 = some iter := hf
      rw [QuickList.forEach, if_neg hsize, hf', Option.bind_some,
        forEachLoop_visits consumer hp h.pages hfuel]

theorem visits_any (expected : α → Bool) (l : List α) (i : Nat) :
    (visits (fun _ actual => !expected actual) i l).any expected = l.any expected := by
  induction l generalizing i with
  | nil => rfl
  | cons a l ih =>
      cases he : expected a <;> simp [visits, he, ih]

theorem Represents.contains (h : Represents ql l) (expected : α → Bool) :
    contains ql expected = some (l.any expected) := by
  rw [QuickList.contains, h.forEach, Option.map_some, visits_any]

theorem Represents.range (h : Represents ql l) {start stop : Nat} (hstart : start < l.length)
    (hle : start ≤ stop) (hstop : stop ≤ l.length) :
    range ql start stop = some ((l.drop start).take (stop - start)) := by
  obtain ⟨iter, before, val, after, hf, hp, hb, he⟩ := h.find hstart
  have hdrop : l.drop start = val :: after := by
    rw [he, ← hb, List.drop_left]
  have hlen : (val :: after).length = l.length - start := by
    rw [← hdrop, List.length_drop]
  have hsize := h.size
  rw [QuickList.range, if_neg (by omega), if_neg (by omega), hf, Option.bind_some, hdrop,
    show ((stop : Int) - start).toNat = stop - start by omega]
  exact rangeLoop_take hp h.pages (by omega)

end

inductive Op (α : Type)
  | add (val : α)
  | insert (index : Nat) (val : α)
  | set (index : Nat) (val : α)
  | get (index : Nat)
  | remove (index : Nat)
  | removeLast
  | forEach (consumer : Nat → α → Bool)
  | contains (expected : α → Bool)
  | range (start stop : Nat)

/-- What an operation returns; `forEach` is observed by what its consumer sees,
and the last value of an empty list is nil. -/
inductive Ret (α : Type)
  | unit
  | val (v : α)
  | last (v : Option α)
  | visited (l : List α)
  | found (b : Bool)
  | slice (l : List α)
deriving DecidableEq

/-- None is a panic. -/
def step (grow : Nat → Nat → Nat) (ql : QuickList α) : Op α → Option (QuickList α × Ret α)
  | .add v => some (add grow ql v, .unit)
  | .insert i v => (insert grow ql i v).map (·, .unit)
  | .set i v => (set ql i v).map (·, .unit)
  | .get i => (get ql i).map (ql, .val ·)
  | .remove i => (remove ql i).map fun (ql, v) => (ql, .val v)
  | .removeLast => (removeLast ql).2.map ((removeLast ql).1, .last ·)
  | .forEach consumer => (forEach ql consumer).map (ql, .visited ·)
  | .contains expected => (contains ql expected).map (ql, .found ·)
  | .range start stop => (range ql start stop).map (ql, .slice ·)

/-- The same operations on a plain list, where the index is in range. -/
def listStep (l : List α) : Op α → Option (List α × Ret α)
  | .add v => some (l ++ [v], .unit)
  | .insert i v => if i ≤ l.length then some (l.insertIdx i v, .unit) else none
  | .set i v => if i < l.length then some (l.set i v, .unit) else none
  | .get i => l[i]?.map (l, .val ·)
  | .remove i => l[i]?.map (l.eraseIdx i, .val ·)
  | .removeLast => some (l.dropLast, .last l.getLast?)
  | .forEach consumer => some (l, .visited (visits consumer 0 l))
  | .contains expected => some (l, .found (l.any expected))
  | .range start stop =>
      if start < l.length ∧ start ≤ stop ∧ stop ≤ l.length
      then some (l, .slice ((l.drop start).take (stop - start))) else none

def Admitted : List α → List (Op α) → Prop
  | _, [] => True
  | l, op :: ops => ∃ next, listStep l op = some next ∧ Admitted next.1 ops

/-- Before and after every operation the list represents the plain list, and both
return the same. -/
def Refines (grow : Nat → Nat → Nat) : QuickList α → List α → List (Op α) → Prop
  | ql, l, [] => Represents ql l
  | ql, l, op :: ops => Represents ql l ∧ ∃ ql' l' ret,
      step grow ql op = some (ql', ret) ∧ listStep l op = some (l', ret) ∧ Refines grow ql' l' ops

def Op.grows : Op α → Bool
  | .add _ => true
  | .insert _ _ => true
  | _ => false

def GrowsNonempty : List α → List (Op α) → Prop
  | _, [] => True
  | l, op :: ops => (op.grows → l ≠ []) ∧ ∀ next, listStep l op = some next → GrowsNonempty next.1 ops

/-- One operation on the pages does what it does on the list. -/
theorem Represents.step {ql : QuickList α} {l : List α} (h : Represents ql l)
    (grow : Nat → Nat → Nat) {op : Op α} (hop : op.grows → l ≠ []) {l' : List α} {ret : Ret α}
    (hs : listStep l op = some (l', ret)) :
    ∃ ql', step grow ql op = some (ql', ret) ∧ Represents ql' l' := by
  cases op with
  | add v =>
      simp only [listStep, Option.some.injEq, Prod.mk.injEq] at hs
      obtain ⟨rfl, rfl⟩ := hs
      exact ⟨_, rfl, h.add (hop rfl) grow v⟩
  | insert i v =>
      simp only [listStep, Option.ite_none_right_eq_some, Option.some.injEq, Prod.mk.injEq] at hs
      obtain ⟨hi, rfl, rfl⟩ := hs
      rcases Nat.lt_or_eq_of_le hi with hi | rfl
      · obtain ⟨ql', hq, hr⟩ := h.insert grow hi v
        exact ⟨ql', by rw [QuickList.step, hq]; rfl, hr⟩
      · refine ⟨QuickList.add grow ql v, ?_, ?_⟩
        · simp [QuickList.step, QuickList.insert, h.size]
        · rw [List.insertIdx_length_self]
          exact h.add (hop rfl) grow v
  | set i v =>
      simp only [listStep, Option.ite_none_right_eq_some, Option.some.injEq, Prod.mk.injEq] at hs
      obtain ⟨hi, rfl, rfl⟩ := hs
      obtain ⟨ql', hq, hr⟩ := h.set hi v
      exact ⟨ql', by rw [QuickList.step, hq]; rfl, hr⟩
  | get i =>
      obtain ⟨v, hv, he⟩ := Option.map_eq_some_iff.mp hs
      obtain ⟨rfl, rfl⟩ := Prod.mk.inj he
      obtain ⟨hi, -⟩ := List.getElem?_eq_some_iff.mp hv
      exact ⟨ql, by rw [QuickList.step, h.get hi, hv]; rfl, h⟩
  | remove i =>
      obtain ⟨v, hv, he⟩ := Option.map_eq_some_iff.mp hs
      obtain ⟨rfl, rfl⟩ := Prod.mk.inj he
      obtain ⟨hi, rfl⟩ := List.getElem?_eq_some_iff.mp hv
      obtain ⟨ql', hq, hr⟩ := h.remove hi
      exact ⟨ql', by rw [QuickList.step, hq]; rfl, hr⟩
  | removeLast =>
      simp only [listStep, Option.some.injEq, Prod.mk.injEq] at hs
      obtain ⟨rfl, rfl⟩ := hs
      obtain ⟨ql', hq, hr⟩ := h.removeLast
      exact ⟨ql', by rw [QuickList.step, hq]; rfl, hr⟩
  | forEach consumer =>
      simp only [listStep, Option.some.injEq, Prod.mk.injEq] at hs
      obtain ⟨rfl, rfl⟩ := hs
      exact ⟨ql, by rw [QuickList.step, h.forEach]; rfl, h⟩
  | contains expected =>
      simp only [listStep, Option.some.injEq, Prod.mk.injEq] at hs
      obtain ⟨rfl, rfl⟩ := hs
      exact ⟨ql, by rw [QuickList.step, h.contains]; rfl, h⟩
  | range start stop =>
      simp only [listStep, Option.ite_none_right_eq_some, Option.some.injEq, Prod.mk.injEq] at hs
      obtain ⟨⟨hstart, hle, hstop⟩, rfl, rfl⟩ := hs
      exact ⟨ql, by rw [QuickList.step, h.range hstart hle hstop]; rfl, h⟩

theorem refines_of_growsNonempty (grow : Nat → Nat → Nat) {ql : QuickList α} {l : List α}
    (h : Represents ql l) {ops : List (Op α)} (hops : Admitted l ops)
    (hgrow : GrowsNonempty l ops) : Refines grow ql l ops := by
  induction ops generalizing ql l with
  | nil => exact h
  | cons op ops ih =>
      obtain ⟨⟨l', ret⟩, hs, hrest⟩ := hops
      obtain ⟨ql', hq, hr⟩ := h.step grow hgrow.1 hs
      exact ⟨h, ql', l', ret, hq, hs, ih hr hrest (hgrow.2 _ hs)⟩

theorem listStep_nil {op : Op α} (hop : op.grows = false) {next : List α × Ret α}
    (hs : listStep [] op = some next) : next.1 = [] := by
  cases op <;> simp_all [listStep, Op.grows]
  all_goals simp [← hs]

theorem growsNonempty_nil {ops : List (Op α)} (h : ∀ op ∈ ops, op.grows = false) :
    GrowsNonempty [] ops := by
  induction ops with
  | nil => trivial
  | cons op ops ih =>
      have hop := h op List.mem_cons_self
      refine ⟨fun hg => absurd hg (by simp [hop]), fun next hs => ?_⟩
      rw [listStep_nil hop hs]
      exact ih (fun op ho => h op (List.mem_cons_of_mem _ ho))

theorem Refines.represents {grow : Nat → Nat → Nat} {ql : QuickList α} {l : List α}
    {ops : List (Op α)} (h : Refines grow ql l ops) : Represents ql l := by
  cases ops with
  | nil => exact h
  | cons op ops => exact h.1

theorem step_grows_empty (grow : Nat → Nat → Nat) {ql : QuickList α} (h : Represents ql [])
    {op : Op α} (hop : op.grows = true) {ql' : QuickList α} {ret ret' : Ret α} {l : List α}
    (hq : step grow ql op = some (ql', ret)) (hl : listStep [] op = some (l, ret')) :
    ¬ Represents ql' l := by
  have hdata := h.data_eq_nil.mpr rfl
  have htwice (v : α) : ¬ Represents (add grow ql v) [v] := by
    intro hr
    have he := hr.elems
    rw [(add_empty hdata grow v).1] at he
    simp at he
  cases op with
  | add v =>
      simp only [step, listStep, Option.some.injEq, Prod.mk.injEq, List.nil_append] at hq hl
      obtain ⟨rfl, rfl⟩ := hq
      obtain ⟨rfl, rfl⟩ := hl
      exact htwice v
  | insert i v =>
      simp only [listStep, List.length_nil, Nat.le_zero, Option.ite_none_right_eq_some,
        Option.some.injEq, Prod.mk.injEq] at hl
      obtain ⟨rfl, rfl, -⟩ := hl
      have hins : insert grow ql (0 : Nat) v = some (add grow ql v) := by
        simp [insert, h.size]
      rw [step, hins] at hq
      simp only [Option.map_some, Option.some.injEq, Prod.mk.injEq] at hq
      obtain ⟨rfl, -⟩ := hq
      simpa using htwice v
  | _ => simp [Op.grows] at hop

theorem not_grows_of_refines (grow : Nat → Nat → Nat) {ql : QuickList α} {ops : List (Op α)}
    (h : Refines grow ql [] ops) : ∀ op ∈ ops, op.grows = false := by
  induction ops generalizing ql with
  | nil => simp
  | cons op ops ih =>
      obtain ⟨hr, ql', l', ret, hq, hl, hrest⟩ := h
      have hop : op.grows = false := by
        by_contra hg
        exact step_grows_empty grow hr (by simpa using hg) hq hl hrest.represents
      have hnil : l' = [] := listStep_nil hop hl
      subst hnil
      intro op' ho
      rcases List.mem_cons.mp ho with rfl | ho
      · exact hop
      · exact ih hrest op' ho

/-- From the new list the pages refine the sequence exactly as long as no element
is ever added. -/
theorem new_refines_iff (grow : Nat → Nat → Nat) (ops : List (Op α)) (h : Admitted [] ops) :
    Refines grow newQuickList [] ops ↔ ∀ op ∈ ops, op.grows = false :=
  ⟨not_grows_of_refines grow, fun hops =>
    refines_of_growsNonempty grow newQuickList_represents h (growsNonempty_nil hops)⟩

/-- The appended runtime doubles the capacity here. -/
theorem new_refines_iff_add_get :
    Refines (fun cap _ => 2 * cap) newQuickList [] [.add 7, .get 0] ↔
      ∀ op ∈ [Op.add 7, .get 0], op.grows = false :=
  new_refines_iff (fun cap _ => 2 * cap) [.add 7, .get 0]
    ⟨([7], .unit), rfl, ([7], .val 7), rfl, trivial⟩

/-- One value added to the new list is in it twice. -/
theorem new_add_not_refines :
    ¬ Refines (fun cap _ => 2 * cap) newQuickList [] [.add (7 : Nat)] := by
  intro h
  simpa [Op.grows] using not_grows_of_refines _ h

end Traitor.QuickList
