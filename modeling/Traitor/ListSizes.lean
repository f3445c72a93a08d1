import Traitor.Collections

namespace Traitor

namespace QuickList

variable {α : Type} {ql ql' : QuickList α} {index : Int}

theorem add_size (grow : Nat → Nat → Nat) (ql : QuickList α) (v : α) :
    (add grow ql v).size = ql.size + 1 := by
  rw [add]
  split
  · rfl
  · split
    · rfl
    · rfl

theorem Iterator.remove_size {iter iter' : Iterator} {val : α}
    (h : iter.remove ql = some (ql', iter', val)) : ql'.size = ql.size - 1 := by
  rw [Iterator.remove] at h
  obtain ⟨n, -, h⟩ := Option.bind_eq_some_iff.mp h
  obtain ⟨page, -, h⟩ := Option.bind_eq_some_iff.mp h
  obtain ⟨v, -, h⟩ := Option.bind_eq_some_iff.mp h
  dsimp only at h
  split at h
  · cases h
    rfl
  · split at h
    · cases h
      rfl
    · cases h
      rfl

theorem remove_size {val : α} (h : ql.remove index = some (ql', val)) : ql'.size = ql.size - 1 := by
  obtain ⟨iter, -, h⟩ := Option.bind_eq_some_iff.mp h
  obtain ⟨⟨ql'', iter', v⟩, hr, heq⟩ := Option.map_eq_some_iff.mp h
  cases heq
  exact Iterator.remove_size hr

theorem set_size {v : α} (h : ql.set index v = some ql') : ql'.size = ql.size := by
  obtain ⟨iter, -, h⟩ := Option.bind_eq_some_iff.mp h
  rw [Iterator.set] at h
  obtain ⟨n, -, h⟩ := Option.bind_eq_some_iff.mp h
  obtain ⟨page, -, h⟩ := Option.bind_eq_some_iff.mp h
  split at h
  · cases h
    rfl
  · cases h

/-- The size falls even when there is no page to take the last element from. -/
theorem WellFormed.removeLast_spec (h : WellFormed ql) (hsize : ql.size ≠ 0) :
    ql.removeLast.1.size = ql.size - 1 ∧ (ql.removeLast.2 = none ↔ ql.data = []) := by
  rw [QuickList.removeLast, if_neg hsize]
  rcases List.eq_nil_or_concat' ql.data with hnil | ⟨pages, last, hlast⟩
  · simp [hnil]
  · have hpage : last.elems ≠ [] := h.pages last (by simp [hlast])
    obtain ⟨l, val, hval⟩ := (List.eq_nil_or_concat' last.elems).resolve_left hpage
    have hget : ql.data.getLast? = some last := by rw [hlast, List.getLast?_concat]
    have hgetVal : last.elems.getLast? = some val := by rw [hval, List.getLast?_concat]
    simp only [hget, hgetVal]
    split
    · exact ⟨rfl, by simp [hlast]⟩
    · exact ⟨rfl, by simp [hlast]⟩

/-- A list of positive size has a last element. -/
theorem WellFormed.removeLast_some (h : WellFormed ql) (hsize : 0 < ql.size) :
    ∃ ql' val, ql.removeLast = (ql', some val) ∧ ql'.size = ql.size - 1 := by
  have hne : ql.data ≠ [] := by
    intro hnil
    have hle := h.size_le
    rw [elems, hnil, elemsOf_nil, List.length_nil] at hle
    omega
  obtain ⟨hlast, hnone⟩ := h.removeLast_spec (by omega)
  obtain ⟨val, hval⟩ := Option.ne_none_iff_exists'.mp (hnone.not.mpr hne)
  exact ⟨ql.removeLast.1, val, Prod.ext rfl hval, hlast⟩

end QuickList

namespace StoredList

variable {α : Type} {l l' : StoredList α} {index : Int}

theorem add_size (grow : Nat → Nat → Nat) (l : StoredList α) (v : α) :
    (l.add grow v).size = l.size + 1 := QuickList.add_size grow l.list v

theorem remove_size {val : α} (h : l.remove index = some (l', val)) : l'.size = l.size - 1 := by
  obtain ⟨⟨ql, v⟩, hw, hr, heq⟩ := Option.pmap_eq_some_iff.mp h
  cases heq
  exact QuickList.remove_size hr

theorem set_size {v : α} (h : l.set index v = some l') : l'.size = l.size := by
  obtain ⟨ql, hw, hs, heq⟩ := Option.pmap_eq_some_iff.mp h
  cases heq
  exact QuickList.set_size hs

theorem eq_of_list (h : l'.list = l.list) : l' = l := by
  cases l
  cases l'
  cases h
  rfl

theorem removeLast_zero (h : l.size = 0) : l.removeLast = (l, some none) := by
  have hlist : l.list.removeLast = (l.list, some none) := if_pos h
  have hfst : l.list.removeLast.1 = l.list := by rw [hlist]
  have hsnd : l.list.removeLast.2 = some none := by rw [hlist]
  exact Prod.ext (eq_of_list hfst) hsnd

theorem removeLast_spec (h : l.size ≠ 0) : l.removeLast.1.size = l.size - 1 ∧
    (l.removeLast.2 = none ↔ l.list.data = []) := l.wellFormed.removeLast_spec h

theorem removeLast_some (h : 0 < l.size) :
    ∃ l' val, l.removeLast = (l', some val) ∧ l'.size = l.size - 1 := by
  obtain ⟨ql, val, hr, hsize⟩ := l.wellFormed.removeLast_some h
  refine ⟨⟨l.list.removeLast.1, l.wellFormed.removeLast⟩, val, ?_, ?_⟩
  · rw [removeLast, congrArg Prod.snd hr]
  · have hsame : l.list.removeLast.1.size = ql.size := by rw [hr]
    exact hsame.trans hsize

end StoredList

namespace Database

open Lib.Effects Lib.Strconv Protocol

variable {σ : Type} {env : Env σ} {w : World σ} {key : Bytes} (args : List Slice)

theorem asList_eq {e : Entity σ} {l : StoredList Slice} (h : e.asList = some l) : e = .list l := by
  cases e <;> simp_all [Entity.asList]

theorem DB.Full.live_list (h : w.db.Full) {e : Entity σ} {l : StoredList Slice}
    (hlive : w.db.live env key = some e) (hl : e.asList = some l) : 0 < l.size := by
  have hne := h.live hlive
  rw [asList_eq hl] at hne
  exact hne

theorem list_nonempty {l : StoredList Slice} (h : 0 < l.size) : (Entity.list l : Entity σ).Nonempty := h

theorem FullAfter.removeEmpty {m : Exec σ Reply} {l : StoredList Slice} (h : w.db.FullBut key)
    (hlookup : w.db.data.lookup key = some (.list l)) (hl : 0 ≤ l.size) (hm : Moves Fills m) :
    FullAfter (do Database.removeEmpty key l; m) w := by
  rw [Database.removeEmpty]
  by_cases hzero : l.size = 0
  · rw [if_pos hzero]
    exact FullAfter.of_remove h hm
  · rw [if_neg hzero]
    refine FullAfter.of_fills (fun k e he => ?_) hm
    by_cases hk : k = key
    · subst hk
      rw [hlookup] at he
      cases he
      exact list_nonempty (by omega)
    · exact h k hk e he

theorem FullAfter.put_removeEmpty {m : Exec σ Reply} {l : StoredList Slice} (h : w.db.FullBut key)
    (hl : 0 ≤ l.size) (hm : Moves Fills m) :
    FullAfter (do setList key l; Database.removeEmpty key l; m) w := by
  rw [FullAfter, wp_bind]
  exact FullAfter.removeEmpty (w := { w with db := w.db.put key (.list l) }) (h.put _)
    (Finmap.lookup_insert _) hl hm

/-- A value that is put in front makes a list that is not empty. -/
theorem insertFront_full {l : StoredList Slice} {values : List Slice} {f : StoredList Slice → Exec σ Reply}
    (h : w.db.FullBut key) (hl : 0 ≤ l.size) (hne : values ≠ [] ∨ w.db.Full)
    (hf : ∀ l, Moves Fills (f l)) : FullAfter (insertFront env key l values >>= f) w := by
  induction values generalizing l w with
  | nil => exact FullAfter.of_fills (hne.resolve_left (not_not.mpr rfl)) (hf l)
  | cons value values ih =>
      obtain ⟨l', hinsert, hsize⟩ := StoredList.insert_front hl env.lib.grow value
      have hput := h.full_put (list_nonempty (σ := σ) (show 0 < l'.size by omega))
      have hrest := ih (l := l') (w := { w with db := w.db.put key (.list l') }) (hput.but key)
        (by omega) (.inr hput)
      rw [insertFront, hinsert]
      rw [FullAfter, wp_bind] at hrest ⊢
      dsimp only
      rw [wp_bind]
      exact hrest

theorem addBack_full {l : StoredList Slice} {values : List Slice} {f : StoredList Slice → Exec σ Reply}
    (h : w.db.FullBut key) (hl : 0 ≤ l.size) (hne : values ≠ [] ∨ w.db.Full)
    (hf : ∀ l, Moves Fills (f l)) : FullAfter (addBack env key l values >>= f) w := by
  induction values generalizing l w with
  | nil => exact FullAfter.of_fills (hne.resolve_left (not_not.mpr rfl)) (hf l)
  | cons value values ih =>
      have hsize := StoredList.add_size env.lib.grow l value
      have hput := h.full_put (list_nonempty (σ := σ) (show 0 < (l.add env.lib.grow value).size by omega))
      have hrest := ih (l := l.add env.lib.grow value)
        (w := { w with db := w.db.put key (.list (l.add env.lib.grow value)) })
        (hput.but key) (by omega) (.inr hput)
      rw [addBack]
      rw [FullAfter, wp_bind] at hrest ⊢
      rw [wp_bind]
      exact hrest

theorem log_return_fills (line : CmdLine) (reply : Reply) : Moves Fills (do
    addAof line
    return reply : Exec σ Reply) := (log_fills _).bind fun _ => .pure _

theorem execLPush_full (h : w.db.Full) (hargs : 2 ≤ args.length) : FullAfter (execLPush env args) w := by
  unfold execLPush
  split
  · next key values =>
      have hne : values ≠ [] := by
        rintro rfl
        simp at hargs
      refine .getOrInit h (fun _ _ ht => ht) (fun _ t ht _ => ?_) fun l e hlive hl => ?_
      · exact insertFront_full ht le_rfl (.inl hne) fun l => log_return_fills _ _
      · exact insertFront_full ((h.evict env _).but _) (h.live_list hlive hl).le (.inl hne)
          fun l => log_return_fills _ _
  · exact h

theorem execLPushX_full (h : w.db.Full) : FullAfter (execLPushX env args) w := by
  unfold execLPushX
  split
  · refine .getAs h (fun _ _ ht => ht) (fun _ ht => ht) fun l e hlive hl => ?_
    exact insertFront_full ((h.evict env _).but _) (h.live_list hlive hl).le (.inr (h.evict env _))
      fun l => log_return_fills _ _
  · exact h

theorem execRPush_full (h : w.db.Full) (hargs : 2 ≤ args.length) : FullAfter (execRPush env args) w := by
  unfold execRPush
  split
  · next key values =>
      have hne : values ≠ [] := by
        rintro rfl
        simp at hargs
      refine .getOrInit h (fun _ _ ht => ht) (fun _ t ht _ => ?_) fun l e hlive hl => ?_
      · exact addBack_full ht le_rfl (.inl hne) fun l => log_return_fills _ _
      · exact addBack_full ((h.evict env _).but _) (h.live_list hlive hl).le (.inl hne)
          fun l => log_return_fills _ _
  · exact h

theorem execRPushX_full (h : w.db.Full) : FullAfter (execRPushX env args) w := by
  unfold execRPushX
  split
  · refine .getAs h (fun _ _ ht => ht) (fun _ ht => ht) fun l e hlive hl => ?_
    exact addBack_full ((h.evict env _).but _) (h.live_list hlive hl).le (.inr (h.evict env _))
      fun l => log_return_fills _ _
  · exact h

theorem execLPop_full (h : w.db.Full) : FullAfter (execLPop env args) w := by
  unfold execLPop
  split
  · refine .getAs h (fun _ _ ht => ht) (fun _ ht => ht) fun l e hlive hl => ?_
    have hpos := h.live_list hlive hl
    dsimp only
    split
    · exact h.evict env _
    · next l' val hr =>
        have hsize := StoredList.remove_size hr
        exact FullAfter.put_removeEmpty ((h.evict env _).but _) (by omega) (log_return_fills _ _)
  · exact h

theorem execRPop_full (h : w.db.Full) : FullAfter (execRPop env args) w := by
  unfold execRPop
  split
  · next key rest =>
      refine .getAs h (fun _ _ ht => ht) (fun _ ht => ht) fun l e hlive hl => ?_
      have hpos := h.live_list hlive hl
      obtain ⟨l', val, hr, hsize⟩ := StoredList.removeLast_some hpos
      have hpop : FullAfter (do
          setList (text key) l'
          removeEmpty (text key) l'
          addAof (cmdLine3 "rpop" (key :: rest))
          return .bulk val.join : Exec σ Reply) { w with db := w.db.evict env (text key) } :=
        FullAfter.put_removeEmpty ((h.evict env _).but _) (by omega) (log_return_fills _ _)
      simp only [FullAfter, wp_bind] at hpop
      simp only [popLast, hr, FullAfter, wp_bind, wp_pure]
      exact hpop
  · exact h

theorem execLSet_full (h : w.db.Full) : FullAfter (execLSet env args) w := by
  unfold execLSet
  split
  · split
    · exact h
    · refine .getAs h (fun _ _ ht => ht) (fun _ ht => ht) fun l e hlive hl => ?_
      have hpos := h.live_list hlive hl
      dsimp only
      split
      · exact h.evict env _
      · split
        · exact h.evict env _
        · next l' hs =>
            have hsize := StoredList.set_size hs
            exact .put_log ((h.evict env _).but _) (list_nonempty (by omega)) _ _
  · exact h

/-- A removal by value leaves the size at zero and panics, or below zero: the size has fallen behind
the elements, or the pass has lost the page it was at. -/
def RemovesTooMany (l : StoredList Slice) (value : Slice) (count : Int) : Prop :=
  if 0 ≤ count then l.list.Drains (fun a => a = value) count
  else l.list.DrainsBack (fun a => a = value) (wrap64 (-count))

theorem removeByCount_sound {l : StoredList Slice} {value : Slice} {count : Int} (hl : 0 < l.size)
    (h : ¬ RemovesTooMany l value count) : 0 < (removeByCount l value count).1.size ∨
      (removeByCount l value count).1.size = 0 ∧ (removeByCount l value count).2 ≠ none := by
  rw [RemovesTooMany] at h
  rw [removeByCount]
  by_cases hzero : count = 0
  · subst hzero
    exact l.list.removeAllByVal_sound l.wellFormed hl h
  · rw [if_neg hzero]
    by_cases hpos : 0 < count
    · rw [if_pos (by omega)] at h
      rw [if_pos hpos]
      exact QuickList.removeByVal_sound l.wellFormed hl h
    · rw [if_neg (by omega)] at h
      rw [if_neg hpos]
      exact QuickList.reverseRemoveByVal_sound l.wellFormed hl h

theorem execLRem_full (h : w.db.Full)
    (hrem : ∀ key rawCount value rest count l, args = key :: rawCount :: value :: rest →
      parseInt 64 (text rawCount) = some count → w.db.live env (text key) = some (.list l) →
      ¬ RemovesTooMany l value count) : FullAfter (execLRem env args) w := by
  unfold execLRem
  split
  · next key rawCount value rest =>
      split
      · exact h
      · next count hcount =>
          refine .getAs h (fun _ _ ht => ht) (fun _ ht => ht) fun l e hlive hl => ?_
          have hpos := h.live_list hlive hl
          obtain rfl := asList_eq hl
          have hsound := removeByCount_sound hpos (hrem key rawCount value rest count l rfl hcount hlive)
          rcases hr : removeByCount l value count with ⟨l', removed⟩
          rw [hr] at hsound
          dsimp only at hsound
          simp only [hr]
          cases removed with
          | none =>
              have hsize : 0 < l'.size := hsound.resolve_right fun hzero => hzero.2 rfl
              exact .put ((h.evict env _).but _) (list_nonempty hsize) .panics
          | some n =>
              have hsize : 0 ≤ l'.size := by omega
              apply FullAfter.put_removeEmpty ((h.evict env _).but _) hsize
              split
              · exact log_return_fills _ _
              · exact .pure _
  · exact h

theorem lookup_put (db : DB σ) (key k : Bytes) (e : Entity σ) :
    (db.put key e).data.lookup k = if k = key then some e else db.data.lookup k := by
  split
  · next hk => rw [hk, DB.put, Finmap.lookup_insert]
  · next hk => rw [DB.put, Finmap.lookup_insert_of_ne _ hk]

/-- What `RPOPLPUSH` does to the two lists, which may be one. -/
theorem moveLast_spec (env : Env σ) (source : Bytes) {dest : Bytes} {s d : StoredList Slice} (h : w.db.FullBut dest)
    (hdest : w.db.data.lookup dest = some (.list d)) (hs : 0 < s.size) (hd : 0 ≤ d.size) :
    ∃ s' val d' d'' s'', s.removeLast = (s', some val) ∧
      (((w.db.put source (.list s')).data.lookup dest).bind Entity.asList).getD d = d' ∧
      d'.insert env.lib.grow 0 val.join = some d'' ∧
      ((((w.db.put source (.list s')).put dest (.list d'')).data.lookup source).bind
        Entity.asList).getD s' = s'' ∧
      ∀ m : Exec σ Reply, Moves Fills m → FullAfter (do removeEmpty source s''; m)
        { w with db := (w.db.put source (.list s')).put dest (.list d'') } := by
  obtain ⟨s', val, hr, hsize⟩ := StoredList.removeLast_some hs
  obtain ⟨d', hd', hcurrent⟩ : ∃ d', 0 ≤ d'.size ∧
      (w.db.put source (.list s')).data.lookup dest = some (.list d') := by
    rw [lookup_put]
    split
    · exact ⟨s', by omega, rfl⟩
    · exact ⟨d, hd, hdest⟩
  obtain ⟨d'', hinsert, hsize'⟩ := StoredList.insert_front hd' env.lib.grow val.join
  obtain ⟨s'', hs'', hcurrent'⟩ : ∃ s'', 0 ≤ s''.size ∧
      ((w.db.put source (.list s')).put dest (.list d'')).data.lookup source = some (.list s'') := by
    rw [lookup_put]
    split
    · exact ⟨d'', by omega, rfl⟩
    · exact ⟨s', by omega, by rw [lookup_put, if_pos rfl]⟩
  refine ⟨s', val, d', d'', s'', hr, by rw [hcurrent]; rfl, hinsert, by rw [hcurrent']; rfl,
    fun m hm => FullAfter.removeEmpty (fun k hk e he => ?_) hcurrent' hs'' hm⟩
  rw [lookup_put] at he
  split at he
  · cases he
    exact list_nonempty (by omega)
  · next hne =>
      rw [lookup_put, if_neg hk] at he
      exact h k hne e he

theorem execRPopLPush_full (h : w.db.Full) : FullAfter (execRPopLPush env args) w := by
  unfold execRPopLPush
  split
  · next source dest rest =>
      refine .getAs h (fun _ _ ht => ht) (fun _ ht => ht) fun l e hlive hl => ?_
      have hpos := h.live_list hlive hl
      refine .getOrInit (h.evict env _) (fun _ _ ht => ht) (fun _ t ht hdest => ?_) fun d e hlive' hd => ?_
      · obtain ⟨s', val, d', d'', s'', hr, hin, hinsert, hin', hfull⟩ :=
          moveLast_spec env (text source) ht hdest hpos le_rfl
        have hrest := hfull _ (log_return_fills (cmdLine3 "rpoplpush" (source :: dest :: rest))
          (.bulk val.join))
        simp only [FullAfter, wp_bind, wp_pure] at hrest
        simp only [FullAfter, popLast, hr, currentList, setList, putEntity, wp_bind, wp_pure, wp_get,
          wp_modifyDB, hin, hinsert, hin']
        exact hrest
      · have hpos' := (h.evict env _).live_list (w := { w with db := w.db.evict env (text source) }) hlive' hd
        obtain rfl := asList_eq hd
        obtain ⟨s', val, d', d'', s'', hr, hin, hinsert, hin', hfull⟩ :=
          moveLast_spec (w := ⟨(w.db.evict env (text source)).evict env (text dest), w.aof⟩) env
            (text source) (((h.evict env _).evict env _).but _) (DB.lookup_evict env hlive')
            hpos hpos'.le
        have hrest := hfull _ (log_return_fills (cmdLine3 "rpoplpush" (source :: dest :: rest))
          (.bulk val.join))
        simp only [FullAfter, wp_bind, wp_pure] at hrest
        simp only [FullAfter, popLast, hr, currentList, setList, putEntity, wp_bind, wp_pure, wp_get,
          wp_modifyDB, hin, hinsert, hin']
        exact hrest
  · exact h

end Database

end Traitor
