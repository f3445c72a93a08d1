import Traitor.LostStores

namespace Traitor

namespace QuickList

variable {α : Type} {ql ql' : QuickList α} {expected : α → Bool} {count : Int} {n : Nat}

/-- A pass never counts back, and one that has counted nothing has changed nothing. -/
theorem removeLoop_counts {fuel : Nat} {iter : Iterator} {removed : Nat}
    (h : removeLoop expected count fuel ql iter removed = (ql', some n)) :
    removed ≤ n ∧ (n = removed → ql' = ql) := by
  fun_induction removeLoop expected count fuel ql iter removed with
  | case1 => cases h
  | case2 =>
      cases h
      exact ⟨le_rfl, fun _ => rfl⟩
  | case3 => cases h
  | case4 => cases h
  | case5 => cases h
  | case6 =>
      cases h
      exact ⟨by omega, fun h => by omega⟩
  | case7 fuel ql iter removed val hend hget hv ql'' iter' val' hremove hc ih =>
      have hrest := ih h
      exact ⟨by omega, fun h => by omega⟩
  | case8 => cases h
  | case9 fuel ql iter removed val hend hget hv iter' inBound hnext ih => exact ih h

theorem reverseRemoveLoop_counts {fuel : Nat} {iter : Iterator} {removed : Nat}
    (h : reverseRemoveLoop expected count fuel ql iter removed = (ql', some n)) :
    removed ≤ n ∧ (n = removed → ql' = ql) := by
  fun_induction reverseRemoveLoop expected count fuel ql iter removed with
  | case1 => cases h
  | case2 =>
      cases h
      exact ⟨le_rfl, fun _ => rfl⟩
  | case3 => cases h
  | case4 => cases h
  | case5 =>
      cases h
      exact ⟨by omega, fun h => by omega⟩
  | case6 => cases h
  | case7 fuel ql iter removed hbegin val hget hv ql'' iter' val' hremove hc iter'' inBound hprev ih =>
      have hrest := ih h
      exact ⟨by omega, fun h => by omega⟩
  | case8 => cases h
  | case9 fuel ql iter removed hbegin val hget hv iter' inBound hprev ih => exact ih h

theorem removeByVal_same (h : removeByVal ql expected count = (ql', some 0)) : ql' = ql := by
  rw [removeByVal] at h
  split at h
  · cases h
    rfl
  · split at h
    · cases h
    · exact (removeLoop_counts h).2 rfl

theorem removeAllByVal_same (h : removeAllByVal ql expected = (ql', some 0)) : ql' = ql := by
  rw [removeAllByVal] at h
  split at h
  · cases h
  · rw [removeAllLoop_eq] at h
    exact (removeLoop_counts h).2 rfl

theorem reverseRemoveByVal_same (h : reverseRemoveByVal ql expected count = (ql', some 0)) : ql' = ql := by
  rw [reverseRemoveByVal] at h
  split at h
  · cases h
    rfl
  · split at h
    · cases h
    · exact (reverseRemoveLoop_counts h).2 rfl

end QuickList

namespace Database

open Lib.Effects Lib.Strconv Protocol

variable {σ : Type} {env : Env σ} {ch : Choices} {w : World σ} {key : Bytes} {args : List Slice}

/-- `LREM` panics with elements taken away, or takes an empty list away and hands nothing on. -/
def LRemLoses (env : Env σ) (w : World σ) (args : List Slice) : Prop :=
  LRemSpoils env w args ∨
    ∃ key rawCount value rest count l, args = key :: rawCount :: value :: rest ∧
      parseInt 64 (text rawCount) = some count ∧ count ≠ 0 ∧
      (w.db.slot (text key)).data = some (.list l) ∧ l.size = 0

theorem removeByCount_same {l l' : StoredList Slice} {value : Slice} {count : Int}
    (h : removeByCount l value count = (l', some 0)) : l' = l := by
  rw [removeByCount] at h
  apply StoredList.eq_of_list
  split at h
  · obtain ⟨rfl, hsome⟩ := Prod.mk.inj h
    exact QuickList.removeAllByVal_same (Prod.ext rfl hsome)
  · split at h
    · obtain ⟨rfl, hsome⟩ := Prod.mk.inj h
      exact QuickList.removeByVal_same (Prod.ext rfl hsome)
    · obtain ⟨rfl, hsome⟩ := Prod.mk.inj h
      exact QuickList.reverseRemoveByVal_same (Prod.ext rfl hsome)

theorem removeByCount_zero {l : StoredList Slice} (h : l.size = 0) (value : Slice) (count : Int) :
    removeByCount l value count = (l, if count = 0 then none else some 0) := by
  have hsize : l.list.size = 0 := h
  apply Prod.ext (removeByCount_of_size_le h.le value count)
  rw [removeByCount]
  have hfind : l.list.find 0 = none := by
    rw [QuickList.find, if_pos (by omega)]
  split
  · simp [StoredList.removeAllByVal, QuickList.removeAllByVal, hfind]
  · split
    · simp [StoredList.removeByVal, QuickList.removeByVal, hsize]
    · simp [StoredList.reverseRemoveByVal, QuickList.reverseRemoveByVal, hsize]

section

variable [LinearOrder σ] [Inhabited σ]

theorem not_recovers_put_list {db : DB σ} {l l' : StoredList Slice}
    (hdata : (w.db.slot key).data = some (.list l)) (hsize : l'.size ≠ l.size) :
    ¬ Recovers env ch w { w with db := db.put key (.list l') } :=
  not_recovers_put (by rintro z ⟨⟩) fun h => hsize (by
    obtain rfl := Entity.list.inj (Option.some.inj (hdata.symm.trans h))
    rfl)

theorem execLRem_logged_iff (hfresh : NoneExpired env w)
    (harity : validateArity 4 (cmdLine3 "lrem" args) = true) :
    Logged env ch (execLRem env args) w ↔ ¬ LRemLoses env w args := by
  rcases args with _ | ⟨key, _ | ⟨rawCount, _ | ⟨value, rest⟩⟩⟩
  · exact iff_of_true .panics (by simp [LRemLoses, LRemSpoils])
  · exact iff_of_true .panics (by simp [LRemLoses, LRemSpoils])
  · exact iff_of_true .panics (by simp [LRemLoses, LRemSpoils])
  constructor
  · rintro h (⟨key', rawCount', value', rest', count, l, heq, hcount, hlive, hpos, hlost⟩ |
      ⟨key', rawCount', value', rest', count, l, heq, hcount, hne, hdata, hsize⟩)
    · cases heq
      rw [hfresh.live] at hlive
      obtain ⟨hnone, hless⟩ := removeByCount_none_iff value count hpos
      simp only [execLRem, hcount] at h
      have hl := (Logged.getAs_iff .list (fun _ _ => asList_eq) (fun _ => rfl) hfresh (fun _ => rfl)
        rfl).mp h l hlive
      simp only [Logged, setList, putEntity, wp_bind, wp_modifyDB, hnone.mpr hlost, wp_panics] at hl
      have hsize := hless hlost
      exact not_recovers_put_list hlive (by omega) hl
    · cases heq
      simp only [execLRem, hcount] at h
      have hl := (Logged.getAs_iff .list (fun _ _ => asList_eq) (fun _ => rfl) hfresh (fun _ => rfl)
        rfl).mp h l hdata
      simp only [Logged, removeByCount_zero hsize, if_neg hne, removeEmpty, if_pos hsize, setList, putEntity,
        remove, wp_bind, wp_modifyDB, lt_self_iff_false, if_false, wp_pure] at hl
      exact not_recovers_silent (text key) (by simp [Slot.Agrees, Slot.empty, hdata]) hl
  · intro h
    apply Logged.of_journalsAt (c := .lRem) rfl harity (steady_of_mem (by decide) _) hfresh
    simp only [command, execLRem]
    cases hcount : parseInt 64 (text rawCount) with
    | none => exact Journals.pure _ w
    | some count =>
        apply journalsAt_getAs .list (fun _ _ => asList_eq) (fun _ => rfl) (fun _ => rfl) rfl
        intro l hlive
        have hdata : w.db.data.lookup (text key) = some (.list l) :=
          Slot.live_data (DB.live_slot w.db (text key) ▸ hlive)
        have hput : Quiet env w { w with db := w.db.put (text key) (.list l) } := ⟨rfl, DB.keeps_put hdata⟩
        dsimp only
        rcases hr : removeByCount l value count with ⟨l', _ | _ | n⟩
        · -- a panic is one of a list that is empty, and so left as it is
          have hpos : ¬ 0 < l.size := fun hpos => h (.inl ⟨key, rawCount, value, rest, count, l, rfl, hcount,
            hlive, hpos, (removeByCount_none_iff value count hpos).1.mp (congrArg Prod.snd hr)⟩)
          obtain rfl : l = l' :=
            (removeByCount_of_size_le (not_lt.mp hpos) value count).symm.trans (congrArg Prod.fst hr)
          exact .inl hput
        · obtain rfl := removeByCount_same hr
          have hsize : l'.size ≠ 0 := by
            intro hzero
            rw [removeByCount_zero hzero] at hr
            by_cases hne : count = 0
            · rw [if_pos hne] at hr
              cases hr
            · exact h (.inr ⟨key, rawCount, value, rest, count, l', rfl, hcount, hne, hdata, hzero⟩)
          simp only [JournalsAt, removeEmpty, if_neg hsize, setList, putEntity, wp_bind, wp_modifyDB, wp_pure,
            lt_self_iff_false, if_false]
          exact .inl hput
        · refine Journals.of_commits (.put _ (.bind (silent_removeEmpty _ _) fun _ => ?_)) w
          rw [if_pos (by omega)]
          exact .log (.pure rfl (verbatim _ _))

theorem execRPop_logged_iff (hfresh : NoneExpired env w)
    (harity : validateArity 2 (cmdLine3 "rpop" args) = true) :
    Logged env ch (execRPop env args) w ↔ ¬ RPopSpoils env w args := by
  rcases args with _ | ⟨key, rest⟩
  · exact iff_of_true .panics (by simp [RPopSpoils])
  constructor
  · rintro h ⟨key', rest', l, heq, hlive, hne, hpages⟩
    cases heq
    rw [hfresh.live] at hlive
    have hl := (Logged.getAs_iff .list (fun _ _ => asList_eq) (fun _ => rfl) hfresh (fun _ => rfl)
      rfl).mp h l hlive
    obtain ⟨hsize, hnone⟩ := StoredList.removeLast_spec hne
    exact not_recovers_put_list hlive (by omega) ((wp_popLast _ _).mp hl |>.1 (hnone.mpr hpages))
  · intro h
    apply Logged.of_journalsAt (c := .rPop) rfl harity (steady_of_mem (by decide) _) hfresh
    apply journalsAt_getAs .list (fun _ _ => asList_eq) (fun _ => rfl) (fun _ => rfl) rfl
    intro l hlive
    refine (wp_popLast _ _).mpr ⟨fun hnone => ?_, fun val _ => ?_⟩
    · by_cases hzero : l.size = 0
      · rw [StoredList.removeLast_zero hzero] at hnone
        cases hnone
      · exact absurd ⟨key, rest, l, rfl, hlive, hzero, (StoredList.removeLast_spec hzero).2.mp hnone⟩ h
    · refine wp_mono (Commits.done (.bind (silent_removeEmpty _ _) fun _ => .log (.pure (by simp) (verbatim _ _))) rfl)
        fun _ _ => .inr

theorem execRPopLPush_logged_iff (hfresh : NoneExpired env w)
    (harity : validateArity 3 (cmdLine3 "rpoplpush" args) = true) :
    Logged env ch (execRPopLPush env args) w ↔ ¬ RPopLPushSpoils env w args := by
  rcases args with _ | ⟨source, _ | ⟨dest, rest⟩⟩
  · exact iff_of_true .panics (by simp [RPopLPushSpoils])
  · exact iff_of_true .panics (by simp [RPopLPushSpoils])
  constructor
  · rintro h ⟨source', dest', rest', l, heq, hlive, hne, hor⟩
    cases heq
    rw [hfresh.live] at hlive
    have hthere (d : StoredList Slice) (hd : (w.db.slot (text dest)).data = some (.list d))
        (hsame : text dest = text source) : d = l := by
      rw [hsame, hlive] at hd
      exact (Entity.list.inj (Option.some.inj hd)).symm
    have hsize := (StoredList.removeLast_spec hne).1
    have hl := (Logged.getAs_iff .list (fun _ _ => asList_eq) (fun _ => rfl) hfresh (fun _ => rfl)
      rfl).mp h l hlive
    have hiff := (Logged.getOrInit_iff .list (fun _ _ => asList_eq) (fun _ => rfl) hfresh fun _ => rfl).mp hl
    simp only [hfresh.live] at hor
    rcases hor with ⟨hgone, hpages⟩ | ⟨d, hd, hor⟩
    · have hfails : MoveFails (text source) (text dest) l .newQuickList :=
        (moveFails_iff (fun hsame => by rw [hsame, hlive] at hgone; cases hgone) hne).mpr (.inl hpages)
      have hnew := (wp_of_run (moveLast_fails (by rw [lookup_put, if_pos rfl]) hfails)).mp (hiff.2 hgone)
      exact not_recovers_put_list hlive (by omega) hnew
    · have hfails := (moveFails_iff (hthere d hd) hne).mpr hor
      exact not_recovers_put_list hlive (by omega) ((wp_of_run (moveLast_fails hd hfails)).mp (hiff.1 d hd))
  · intro h
    apply Logged.of_journalsAt (c := .rPopLPush) rfl harity (steady_of_mem (by decide) _) hfresh
    apply journalsAt_getAs .list (fun _ _ => asList_eq) (fun _ => rfl) (fun _ => rfl) rfl
    intro l hlive
    refine (wp_getOrInit_iff .list (fun _ _ => asList_eq) (fun _ => rfl) (fun _ => rfl) fun reply =>
      .inl ⟨rfl, DB.keeps_evict w.db (text dest)⟩).mpr ⟨fun d hd => ?_, fun hgone => ?_⟩
    · have hdest : w.db.data.lookup (text dest) = some (.list d) :=
        Slot.live_data (DB.live_slot w.db (text dest) ▸ hd)
      have hsource : w.db.data.lookup (text source) = some (.list l) :=
        Slot.live_data (DB.live_slot w.db (text source) ▸ hlive)
      by_cases hfails : MoveFails (text source) (text dest) l d
      · have hzero : l.size = 0 := by
          by_contra hne
          have hsame (heq : text dest = text source) : d = l := by
            rw [heq, hlive] at hd
            exact (Entity.list.inj (Option.some.inj hd)).symm
          exact h ⟨source, dest, rest, l, rfl, hlive, hne, .inr ⟨d, hd, (moveFails_iff hsame hne).mp hfails⟩⟩
        refine (wp_of_run (moveLast_fails hdest hfails)).mpr (.inl ⟨rfl, ?_⟩)
        rw [StoredList.removeLast_zero hzero]
        exact DB.keeps_put hsource
      · exact wp_mono (moveLast_works hdest (verbatim _ _) hfails) fun _ _ => .inr
    · have hdiffer : text dest ≠ text source := by
        intro hsame
        rw [hsame, hlive] at hgone
        cases hgone
      have hworks : ¬ MoveFails (text source) (text dest) l .newQuickList := by
        intro hfails
        by_cases hzero : l.size = 0
        · rw [MoveFails, StoredList.removeLast_zero hzero, if_neg hdiffer] at hfails
          simp at hfails
        · have hpages := ((moveFails_iff (fun hsame => absurd hsame hdiffer) hzero).mp hfails).resolve_right (by simp)
          exact h ⟨source, dest, rest, l, rfl, hlive, hzero, .inl ⟨hgone, hpages⟩⟩
      rw [hfresh.evict]
      exact wp_mono (moveLast_works (by rw [lookup_put, if_pos rfl]) (verbatim _ _) hworks) fun _ _ => .inr

end

end Database

end Traitor
