import Traitor.LazyExpiry
import Traitor.WriteSets

namespace Traitor.Database

open Lib.Effects Lib.Strconv Protocol

variable {σ : Type} [LinearOrder σ] [Inhabited σ] {env : Env σ} {w : World σ} {key : Bytes}

/-- The executor changes no key that its command does not declare to write, but for
expired ones that it removes. -/
def DeclaresWrites (env : Env σ) (c : CommandName) (args : List Slice) (w : World σ) : Prop :=
  ∀ key ∉ ((command env c).prepare args).1,
    w.db.SameAt (final ((command env c).executor args) w).db key ∨
      w.db.Evicted env (final ((command env c).executor args) w).db key

def Renames (env : Env σ) (w : World σ) : CommandName → List Slice → Prop
  | .rename, [src, dest] => w.db.live env (text src) ≠ none ∧ text src ≠ text dest
  | .renameNx, src :: dest :: _ =>
      w.db.live env (text src) ≠ none ∧ w.db.live env (text dest) = none
  | _, _ => False

omit [LinearOrder σ] [Inhabited σ] in
theorem kept_of_moves {K : List Bytes} {m : Exec σ Reply} (h : Moves (Within env K) m) (hkey : key ∉ K) :
    w.db.SameAt (final m w).db key ∨ w.db.Evicted env (final m w).db key := (h.final w).2 key hkey

omit [LinearOrder σ] [Inhabited σ] in
theorem kept_of_quiet {w' : World σ} (h : Quiet env w w') :
    w.db.SameAt w'.db key ∨ w.db.Evicted env w'.db key := h.2.2 key

theorem execRename_declares {args : List Slice} (h : ¬ Renames env w .rename args) :
    DeclaresWrites env .rename args w := by
  intro key hkey
  rcases args with _ | ⟨src, _ | ⟨dest, _ | ⟨more, rest⟩⟩⟩
  · exact kept_of_quiet (refl_of (Quiet env) w)
  · exact kept_of_quiet (refl_of (Quiet env) w)
  · cases hlive : w.db.live env (text src) with
    | none =>
        have hfinal := (execRename_of_none dest hlive).2
        rw [command, hfinal]
        exact kept_of_quiet ⟨rfl, w.db.keeps_evict (text src)⟩
    | some e =>
        have heq : text src = text dest := by
          by_contra hne
          exact h ⟨by simp [hlive], hne⟩
        apply kept_of_moves (execRename_within [src, dest])
        simpa [command, prepareRename, heq] using hkey
  · exact kept_of_quiet (refl_of (Quiet env) w)

theorem execRenameNx_declares {args : List Slice} (h : ¬ Renames env w .renameNx args) :
    DeclaresWrites env .renameNx args w := by
  intro key _
  rcases args with _ | ⟨src, _ | ⟨dest, rest⟩⟩
  · exact kept_of_quiet (refl_of (Quiet env) w)
  · exact kept_of_quiet (refl_of (Quiet env) w)
  · refine kept_of_quiet ((wp_iff _ (fun _ w' => Quiet env w w') w).mp ?_)
    have hdest : Quiet env w { w with db := w.db.evict env (text dest) } :=
      ⟨rfl, w.db.keeps_evict (text dest)⟩
    simp only [command, execRenameNx, wp_bind, wp_getEntity]
    cases hlive : w.db.live env (text dest) with
    | some e => exact hdest
    | none =>
        have hsrc : (w.db.evict env (text dest)).live env (text src) = none := by
          rw [DB.live_eq (hdest.2.2 (text src))]
          by_contra hsome
          exact h ⟨hsome, hlive⟩
        simp only [wp_bind, wp_getEntity, hsrc]
        have hboth : Quiet env w
            { w with db := (w.db.evict env (text dest)).evict env (text src) } :=
          ⟨rfl, hdest.2.trans (DB.keeps_evict _ (text src))⟩
        exact hboth

theorem declaresWrites {c : CommandName} {args : List Slice} (h : ¬ Renames env w c args) :
    DeclaresWrites env c args w := by
  by_cases hmoved : movedKeys c args = []
  · intro key hkey
    apply kept_of_moves (command_within c args)
    simpa [hmoved] using hkey
  · cases c with
    | rename => exact execRename_declares h
    | renameNx => exact execRenameNx_declares h
    | _ => exact absurd rfl hmoved

/-- The key that has lost its value was live, and not declared. -/
theorem not_declaresWrites_of_gone (key : Bytes) {c : CommandName} {args : List Slice}
    (hkey : key ∉ ((command env c).prepare args).1) (hlive : w.db.live env key ≠ none)
    (hgone : (final ((command env c).executor args) w).db.data.lookup key = none) :
    ¬ DeclaresWrites env c args w := by
  intro h
  rcases h key hkey with hsame | hevicted
  · rw [DB.live, ← hsame.1, hgone, ite_self] at hlive
    exact hlive rfl
  · rw [DB.live, hevicted.1] at hlive
    exact hlive rfl

omit [LinearOrder σ] [Inhabited σ] in
theorem lookup_slot (db : DB σ) (key : Bytes) : db.data.lookup key = (db.slot key).data := rfl

theorem execRename_not_declares {args : List Slice} (h : Renames env w .rename args) :
    ¬ DeclaresWrites env .rename args w := by
  rcases args with _ | ⟨src, _ | ⟨dest, _ | ⟨more, rest⟩⟩⟩
  · exact h.elim
  · exact h.elim
  · obtain ⟨hlive, hne⟩ := h
    obtain ⟨e, he⟩ := Option.ne_none_iff_exists'.mp hlive
    refine not_declaresWrites_of_gone (text src) ?_ hlive ?_
    · simpa [command, prepareRename] using hne
    · rw [lookup_slot, command, (execRename_of_some he hne).2, if_neg hne, if_pos rfl]
      rfl
  · exact h.elim

def StaysGone (key : Bytes) (w w' : World σ) : Prop :=
  w.db.data.lookup key = none → w'.db.data.lookup key = none

instance : Std.Refl (StaysGone (σ := σ) key) := ⟨fun _ => id⟩

instance : IsTrans (World σ) (StaysGone key) := ⟨fun _ _ _ h h' => h' ∘ h⟩

omit [LinearOrder σ] [Inhabited σ] in
theorem remove_staysGone (k : Bytes) : Moves (StaysGone (σ := σ) key) (remove k) := by
  intro w h
  by_cases hk : key = k
  · subst hk
    exact Finmap.lookup_erase (a := key) _
  · simpa [DB.remove, Finmap.lookup_erase_ne hk] using h

omit [LinearOrder σ] [Inhabited σ] in
theorem removes_staysGone (key : Bytes) (keys : List Bytes) : Moves (StaysGone (σ := σ) key) (removes keys) := by
  induction keys with
  | nil => exact .pure 0
  | cons k keys ih =>
      have hhas : Moves (StaysGone (σ := σ) key) (has k) := fun w => id
      apply hhas.bind
      intro b
      split
      · exact (remove_staysGone k).bind fun _ => ih.bind fun _ => .pure _
      · exact ih

omit [LinearOrder σ] [Inhabited σ] in
theorem removes_gone (keys : List Bytes) (w : World σ) :
    wp (removes (key :: keys)) (fun _ t => t.db.data.lookup key = none) w := by
  simp only [removes, has, remove, modifyDB, wp_bind, wp_get, wp_pure, wp_ite, wp_modify]
  cases h : (w.db.data.lookup key).isSome with
  | false =>
      rw [if_neg Bool.false_ne_true]
      have hnone : w.db.data.lookup key = none := by simpa using h
      exact wp_mono (removes_staysGone key keys w) fun _ _ hstays => hstays hnone
  | true =>
      have hgone : (w.db.remove key).data.lookup key = none := Finmap.lookup_erase _ _
      rw [if_pos rfl]
      refine wp_mono (removes_staysGone key keys { w with db := w.db.remove key })
        fun r t hstays => ?_
      cases r with
      | none => exact hstays hgone
      | some n => exact hstays hgone

omit [LinearOrder σ] [Inhabited σ] in
theorem moveTTL_staysGone (key src dest : Bytes) (ttl : Option Int) :
    Moves (StaysGone (σ := σ) key) (moveTTL src dest ttl) := by
  cases ttl with
  | none => exact .pure _
  | some t => exact fun w => id

omit [LinearOrder σ] [Inhabited σ] in
/-- The key that gets the other name is gone. -/
theorem execRenameNx_gone {src dest : Slice} (rest : List Slice)
    (hlive : w.db.live env (text src) ≠ none) (hdest : w.db.live env (text dest) = none) :
    (final (execRenameNx env (src :: dest :: rest)) w).db.data.lookup (text src) = none := by
  have hne : text src ≠ text dest := fun heq => hlive (heq ▸ hdest)
  obtain ⟨e, he⟩ := Option.ne_none_iff_exists'.mp hlive
  have hsrc : (w.db.evict env (text dest)).live env (text src) = some e := by
    rw [DB.live_eq ((w.db.keeps_evict (text dest)).2 (text src)), he]
  apply (wp_iff _ (fun _ (w' : World σ) => w'.db.data.lookup (text src) = none) w).mp
  simp only [execRenameNx, wp_bind, wp_getEntity, hdest, hsrc, getTTL, wp_get, wp_pure]
  apply wp_mono (removes_gone [text dest] _)
  intro r t ht
  cases r with
  | none => exact ht
  | some n =>
      have hput : (t.db.put (text dest) e).data.lookup (text src) = none := by
        simpa [DB.put, hne] using ht
      simp only [putEntity, modifyDB, wp_modify]
      refine wp_mono (moveTTL_staysGone (text src) (text src) (text dest) _
        { t with db := t.db.put (text dest) e }) fun r t' hstays => ?_
      cases r with
      | none => exact hstays hput
      | some u => exact hstays hput

theorem not_declaresWrites {c : CommandName} {args : List Slice} (h : Renames env w c args) :
    ¬ DeclaresWrites env c args w := by
  cases c with
  | rename => exact execRename_not_declares h
  | renameNx =>
      rcases args with _ | ⟨src, _ | ⟨dest, rest⟩⟩
      · exact h.elim
      · exact h.elim
      · have hne : text src ≠ text dest := fun heq => h.1 (heq ▸ h.2)
        refine not_declaresWrites_of_gone (text src) ?_ h.1 (execRenameNx_gone rest h.1 h.2)
        simpa [command, prepareRename] using hne
  | _ => exact h.elim

/-- Every command changes only the keys that it declares to write, but for `RENAME` and
`RENAMENX` of a live key. -/
theorem declaresWrites_iff (env : Env σ) (c : CommandName) (args : List Slice) (w : World σ) :
    DeclaresWrites env c args w ↔ ¬ Renames env w c args :=
  ⟨fun hd h => not_declaresWrites h hd, declaresWrites⟩

/-- `RENAME a b`, with a key `a` that is not declared. -/
theorem not_declaresWrites_rename : ¬ ∀ (env : Env ℤ) (c : CommandName) (args : List Slice)
    (w : World ℤ), validateArity (command env c).arity (some (bytes c.name) :: args) = true →
      DeclaresWrites env c args w := by
  intro h
  let w : World ℤ := ⟨World.empty.db.put (bytes "a") (.str none), []⟩
  have hlive : w.db.live (Env.plain 0) (bytes "a") ≠ none := by
    simp [w, DB.live, DB.put, DB.isExpired, World.empty]
  exact not_declaresWrites (show Renames (Env.plain 0) w .rename [some (bytes "a"), some (bytes "b")]
    from ⟨hlive, by decide⟩) (h (.plain 0) .rename [some (bytes "a"), some (bytes "b")] w rfl)

end Traitor.Database
