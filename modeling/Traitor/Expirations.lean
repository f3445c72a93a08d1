import Traitor.CollectionEdits
import Traitor.Lib.Runs
import Traitor.Renames

namespace Traitor.Database

open Lib.Effects Lib.Strconv Protocol

variable {σ : Type} [LinearOrder σ] [Inhabited σ] {env : Env σ} {w : World σ} {c : CommandName}

def RenamesItself (env : Env σ) (w : World σ) : CommandName → List Slice → Prop
  | .rename, [src, dest] => text src = text dest ∧ w.db.live env (text src) ≠ none ∧
      (w.db.slot (text src)).ttl ≠ none
  | _, _ => False

omit [LinearOrder σ] [Inhabited σ] in
theorem execRename_whole_iff (h : w.db.Whole) (args : List Slice) :
    (final (execRename env args) w).db.Whole ↔ ¬ RenamesItself env w .rename args := by
  rcases args with _ | ⟨src, _ | ⟨dest, _ | ⟨more, rest⟩⟩⟩
  · exact iff_of_true h id
  · exact iff_of_true h id
  · constructor
    · rintro hwhole ⟨heq, hlive, httl⟩
      obtain ⟨e, he⟩ := Option.ne_none_iff_exists'.mp hlive
      have hself := hwhole (text dest)
      rw [(execRename_self he heq).2] at hself
      exact httl (hself rfl)
    · intro hself
      have hrenamable : Renamable env (fun _ : Entity σ => True) w (text src) (text dest) :=
        ⟨fun _ _ => trivial, fun heq hlive => by_contra fun httl => hself ⟨heq, hlive, httl⟩⟩
      have hedits := (wp_iff _ _ w).mp (execRename_edits (K := Set.univ) trivial trivial hrenamable)
      exact Edits.whole hedits h
  · exact iff_of_true h id

omit [LinearOrder σ] [Inhabited σ] in
theorem execRenameNx_whole (h : w.db.Whole) (args : List Slice) :
    (final (execRenameNx env args) w).db.Whole := by
  rcases args with _ | ⟨src, _ | ⟨dest, rest⟩⟩
  · exact h
  · exact h
  · have hedits := execRenameNx_edits (K := Set.univ) rest (Set.mem_univ (text src))
      (Set.mem_univ (text dest)) fun e (_ : w.db.live env (text src) = some e) => trivial
    exact Edits.whole ((wp_iff _ _ w).mp hedits) h

theorem command_whole_iff (h : w.db.Whole) (args : List Slice) :
    (final ((command env c).executor args) w).db.Whole ↔ ¬ RenamesItself env w c args := by
  by_cases hrename : c = .rename
  · subst hrename
    exact execRename_whole_iff h args
  · have hnot : ¬ RenamesItself env w c args := by
      intro hself
      unfold RenamesItself at hself
      split at hself
      · exact hrename rfl
      · exact hself
    refine iff_of_true ?_ hnot
    by_cases hrenameNx : c = .renameNx
    · subst hrenameNx
      exact execRenameNx_whole h args
    · exact Edits.whole ((command_changes hrename hrenameNx args).final w) h

def Event.Orphans (env : Env σ) (s : Server σ) : Event → Prop
  | .command line => ∃ name args c, line = name :: args ∧ cmdTable (toLower (text name)) = some c ∧
      validateArity (Database.command (env.atTime s.now) c).arity line = true ∧
      RenamesItself (env.atTime s.now) s.world c args
  | _ => False

theorem step_whole_iff {s : Server σ} (h : s.world.db.Whole) (e : Event) :
    (s.step env e).world.db.Whole ↔ ¬ e.Orphans env s := by
  cases e with
  | pass d => exact iff_of_true h id
  | expire key =>
      refine iff_of_true ?_ id
      rw [Server.step]
      split
      · have hedit : Edit env (fun _ => True) Set.univ s.world { s.world with db := s.world.db.remove key } :=
          .remove s.world trivial
        exact Edits.whole (.single hedit) h
      · exact h
  | command line =>
      rw [Server.step]
      rcases line with _ | ⟨name, args⟩
      · refine iff_of_true ?_ ?_
        · rwa [exec_nil]
        · rintro ⟨name, args, c, ⟨⟩, -⟩
      · cases hc : cmdTable (toLower (text name)) with
        | none =>
            refine iff_of_true ?_ ?_
            · rwa [exec_unknown hc]
            · rintro ⟨name', args', c, ⟨⟩, hc', -⟩
              cases hc.symm.trans hc'
        | some c =>
            by_cases harity : validateArity (command (env.atTime s.now) c).arity (name :: args) = true
            · obtain ⟨versionMap, hw⟩ := exec_command (w := s.world) hc harity
              rw [hw, command_whole_iff (w := s.world.versions versionMap) h args, not_iff_not]
              constructor
              · exact fun hself => ⟨name, args, c, rfl, hc, harity, hself⟩
              · rintro ⟨name', args', c', ⟨⟩, hc', -, hself⟩
                obtain rfl := Option.some.inj (hc.symm.trans hc')
                exact hself
            · refine iff_of_true ?_ ?_
              · rwa [exec_badArity hc (Bool.not_eq_true _ ▸ harity)]
              · rintro ⟨name', args', c', ⟨⟩, hc', harity', -⟩
                obtain rfl := Option.some.inj (hc.symm.trans hc')
                exact harity harity'

def Server.after (env : Env σ) (now : Int) (events : List Event) : Server σ :=
  events.foldl (Server.step env) ⟨now, .empty⟩

theorem after_concat (env : Env σ) (now : Int) (before : List Event) (e : Event) :
    Server.after env now (before ++ [e]) = (Server.after env now before).step env e := List.foldl_append

theorem whole_after {now : Int} {events : List Event}
    (h : ∀ before e, before ++ [e] <+: events → ¬ e.Orphans env (Server.after env now before)) :
    ∀ before, before <+: events → (Server.after env now before).world.db.Whole := by
  apply Lib.Runs.all_along
  · exact fun key _ => rfl
  · intro before e hbefore hwhole
    rw [after_concat]
    exact (step_whole_iff hwhole e).mpr (h before e hbefore)

/-- All along a run every expiration goes with a value, if and only if no key that has an expiration
is renamed to itself. -/
theorem expirations_have_values_iff (env : Env σ) (now : Int) (events : List Event) :
    (∀ before, before <+: events → (Server.after env now before).world.db.Whole) ↔
      ∀ before e, before ++ [e] <+: events → ¬ e.Orphans env (Server.after env now before) := by
  refine ⟨fun hall before e hbefore => ?_, whole_after⟩
  have hwhole := hall before ((List.prefix_append before [e]).trans hbefore)
  rw [← step_whole_iff hwhole, ← after_concat]
  exact hall _ hbefore

end Traitor.Database
