import Traitor.Expirations

namespace Traitor.Database

open Lib.Effects Lib.Strconv Protocol

variable {σ : Type} {env : Env σ} {w w' : World σ} {c : CommandName} {name : Slice} {args : List Slice}
  {line : CmdLine}

theorem Slot.isExpired_mono {slot : Slot σ} {t u : Int} (htu : t ≤ u) (h : slot.isExpired t = true) :
    slot.isExpired u = true := by
  simp only [isExpired, Option.any_eq_true, decide_eq_true_eq] at h ⊢
  obtain ⟨n, hn, hlt⟩ := h
  exact ⟨n, hn, lt_of_lt_of_le hlt htu⟩

theorem Slot.evict_evict_of_le {t u : Int} (htu : t ≤ u) (slot : Slot σ) :
    (slot.evict t).evict u = slot.evict u := by
  by_cases h : slot.data.isSome = true ∧ slot.isExpired t = true
  · have hthen : slot.evict t = empty := if_pos h
    have hlater : slot.evict u = empty := if_pos ⟨h.1, isExpired_mono htu h.2⟩
    rw [hthen, hlater]
    rfl
  · have hthen : slot.evict t = slot := if_neg h
    rw [hthen]

def Server.vanish (env : Env σ) (s : Server σ) : Server σ :=
  { s with world := purge (env.atTime s.now) s.world }

/-- What is there on the first server, but for the keys that are expired, is what is there on the
second. -/
def Shadows (s v : Server σ) : Prop :=
  v.now = s.now ∧ ∀ key, v.world.db.slot key = (s.world.db.slot key).evict s.now

/-- The order in which `KEYS` lists the keys does not count. -/
def SameAnswer (line : CmdLine) (r r' : Reply) : Prop :=
  r = r' ∨ (∃ name args, line = name :: args ∧ cmdTable (toLower (text name)) = some .keys) ∧
    ∃ l l', r = .multiBulk l ∧ r' = .multiBulk l' ∧ l.Perm l'

section

variable [LinearOrder σ] [Inhabited σ]

/-- A server on which a key is gone at the moment when its expiration passes, so that nothing is left
for the wheel. -/
def Server.stepInstant (env : Env σ) (s : Server σ) : Event → Server σ
  | .pass d => (s.step env (.pass d)).vanish env
  | .command line => (s.step env (.command line)).vanish env
  | .expire _ => s

def Server.afterInstant (env : Env σ) (now : Int) (events : List Event) : Server σ :=
  events.foldl (Server.stepInstant env) ⟨now, .empty⟩

def Event.AnsweredAlike (env : Env σ) (s v : Server σ) : Event → Prop
  | .command line => SameAnswer line (exec (env.atTime s.now) line s.world).1
      (exec (env.atTime v.now) line v.world).1
  | _ => True

/-- A command takes an expired key for one that is there, or leaves its expiration to a new value. -/
def Event.Mistaken (env : Env σ) (s : Server σ) : Event → Prop
  | .command line => ∃ name args c, line = name :: args ∧ cmdTable (toLower (text name)) = some c ∧
      validateArity (Database.command (env.atTime s.now) c).arity line = true ∧
      Mistakes (env.atTime s.now) s.world c args
  | _ => False

theorem executor_same (env : Env σ) (h : w.db.slot = w'.db.slot) (c : CommandName) (args : List Slice) :
    value ((command env c).executor args) w = value ((command env c).executor args) w' ∧
      (final ((command env c).executor args) w).db.slot = (final ((command env c).executor args) w').db.slot := by
  have hsimilar : Similar env Set.univ w w' := Similar.univ_iff.mpr h
  obtain ⟨hvalue, hfinal⟩ := command_alike c args (fun _ _ => trivial) (fun _ _ => trivial) w w' hsimilar
  exact ⟨hvalue, Similar.univ_iff.mp hfinal⟩

theorem exec_executor (hc : cmdTable (toLower (text name)) = some c)
    (harity : validateArity (command env c).arity (name :: args) = true) :
    (exec env (name :: args) w).1 = (value ((command env c).executor args) w).getD .unknownErr ∧
      (exec env (name :: args) w).2.db.slot = (final ((command env c).executor args) w).db.slot := by
  have hrun : wp (execNormalCommand env (name :: args)) (fun r w' =>
      r = value ((command env c).executor args) w ∧
        w'.db.slot = (final ((command env c).executor args) w).db.slot) w := by
    simp only [execNormalCommand, findCommand, hc, harity, if_true, wp_bind, wp_pure]
    apply wp_mono (wp_addVersion _ w)
    rintro r w' ⟨rfl, versionMap, rfl⟩
    have hslots : (w.versions versionMap).db.slot = w.db.slot := rfl
    exact (wp_iff _ _ _).mpr (executor_same env hslots c args)
  obtain ⟨hvalue, hfinal⟩ := (wp_iff _ _ w).mp hrun
  exact ⟨congrArg (Option.getD · _) hvalue, hfinal⟩

omit [LinearOrder σ] [Inhabited σ] in
theorem store_answers {m : Exec σ Calculated} {f : Calculated → Exec σ Reply} {name : String} {dest : Slice}
    {keys : List Slice} (hm : ∀ K, Relates (Similar env K)
      (fun r => Similar env (lookedAt K (keys.map text) r)) m)
    (hf : ∀ s, f (.result (some s)) = storeSet env name dest keys s) (h : Stores m w) :
    ∃ r r', value (m >>= f) w = some r ∧ value (m >>= f) (purge env w) = some r' := by
  obtain ⟨s, hs⟩ := h
  have hs' : value m (purge env w) = some (.result (some s)) :=
    (hm _ w (purge env w) (purge_similar w)).1.symm.trans hs
  have hvalue {w : World σ} (hs : value m w = some (.result (some s))) :
      value (m >>= f) w = value (storeSet env name dest keys s) (final m w) := by
    rw [value_bind, hs, Option.bind_some, hf]
  exact ⟨_, _, hvalue hs, hvalue hs'⟩

/-- A command that mistakes an expired key does not panic, with that key or without. -/
theorem answers_of_mistakes (h : Mistakes env w c args) :
    ∃ r r', value ((command env c).executor args) w = some r ∧
      value ((command env c).executor args) (purge env w) = some r' := by
  by_cases hc : c ∈ mistaking
  · simp only [mistaking, List.mem_cons, List.not_mem_nil, or_false] at hc
    rcases hc with rfl | rfl | rfl | rfl | rfl | rfl | rfl | rfl
    · rcases args with _ | ⟨key, _ | ⟨value, options⟩⟩
      · exact h.elim
      · exact h.elim
      · simp only [Mistakes] at h
        split at h
        · next ho => exact ⟨_, _, execSet_value ho w, execSet_value ho _⟩
        · next ho => exact ⟨_, _, execSet_value ho w, execSet_value ho _⟩
        · exact h.elim
    · rcases args with _ | ⟨key, _ | ⟨value, rest⟩⟩
      · exact h.elim
      · exact h.elim
      · exact ⟨_, _, execSetNX_value key value rest w, execSetNX_value key value rest _⟩
    · have hvalue (w : World σ) : value (execMSet args) w = some .ok := by
        rw [execMSet, if_neg (by have := h.1; omega), value_bind, putPairs_value]
        rfl
      exact ⟨_, _, hvalue w, hvalue _⟩
    · obtain ⟨n, n', hn, hn', -⟩ := removes_purged (args.map text) (slot_purge w : ∀ key, (purge env w).db.slot key = _)
      exact ⟨_, _, execDel_value args w hn, execDel_value args _ hn'⟩
    · rcases args with _ | ⟨src, _ | ⟨dest, _ | ⟨more, rest⟩⟩⟩
      · exact h.elim
      · exact h.elim
      · obtain ⟨he, hlive, -⟩ := h
        obtain ⟨e, hlive⟩ := Option.ne_none_iff_exists'.mp hlive
        have hsrc : ¬ Expired env w (text src) := not_expired_of_live (by simp [hlive])
        have hne : text src ≠ text dest := fun heq => hsrc (heq ▸ he)
        exact ⟨_, _, (execRename_of_some hlive hne).1, (execRename_of_some ((live_purge w _).trans hlive) hne).1⟩
      · exact h.elim
    · rcases args with _ | ⟨pattern, rest⟩
      · exact h.elim
      · exact ⟨_, _, (execKeys_run env pattern rest w).1, (execKeys_run env pattern rest _).1⟩
    · rcases args with _ | ⟨dest, keys⟩
      · exact h.elim
      · exact store_answers (fun K => interLoop_looks none (keys.map text)) (fun _ => rfl) h.2.2
    · rcases args with _ | ⟨dest, keys⟩
      · exact h.elim
      · exact store_answers (fun K => diffLoop_looks true none (keys.map text)) (fun _ => rfl) h.2.2
  · exact absurd h (mistakes_of_not_mem hc).2

/-- A line does the same with the expired keys and without them, unless it mistakes one of them. -/
theorem exec_instant_iff {v : World σ} (h : ∀ key, v.db.slot key = (w.db.slot key).evict env.now)
    (hc : cmdTable (toLower (text name)) = some c)
    (harity : validateArity (command env c).arity (name :: args) = true) :
    (SameAnswer (name :: args) (exec env (name :: args) w).1 (exec env (name :: args) v).1 ∧
      ∀ key, ((exec env (name :: args) v).2.db.slot key).evict env.now =
        ((exec env (name :: args) w).2.db.slot key).evict env.now) ↔ ¬ Mistakes env w c args := by
  have hpurge : v.db.slot = (purge env w).db.slot := funext fun key => (h key).trans (slot_purge w key).symm
  obtain ⟨hanswer, hslots⟩ := exec_executor (w := w) hc harity
  obtain ⟨hanswer', hslots'⟩ := exec_executor (w := v) hc harity
  obtain ⟨hvalue, hfinal⟩ := executor_same env hpurge c args
  rw [hanswer, hanswer', hslots, hslots', hvalue, hfinal, ← transparent_iff]
  refine ⟨fun ⟨hsame, hviews⟩ => ?_, fun ⟨hsame, hviews⟩ => ⟨?_, fun key => (hviews key).symm⟩⟩
  · rw [transparent_iff]
    intro hm
    obtain ⟨r, r', hr, hr'⟩ := answers_of_mistakes hm
    rw [hr, hr'] at hsame
    refine not_transparent hm ⟨?_, fun key => (hviews key).symm⟩
    rw [hr, hr']
    rcases hsame with heq | ⟨⟨name', args', hline, hkeys⟩, l, l', hl, hl', hperm⟩
    · exact .inl (congrArg some heq)
    · cases hline
      exact .inr ⟨Option.some.inj (hc.symm.trans hkeys), l, l', congrArg some hl, congrArg some hl', hperm⟩
  · rcases hsame with heq | ⟨rfl, l, l', hl, hl', hperm⟩
    · exact .inl (congrArg (Option.getD · _) heq)
    · exact .inr ⟨⟨name, args, rfl, hc⟩, l, l', congrArg (Option.getD · _) hl,
        congrArg (Option.getD · _) hl', hperm⟩

theorem exec_rejects (h : ¬ ∃ name args c, line = name :: args ∧ cmdTable (toLower (text name)) = some c ∧
    validateArity (command env c).arity line = true) :
    ∃ reply, ∀ w, exec env line w = (reply, w) := by
  have hexec (reply : Option Reply)
      (hrun : ∀ w, wp (execNormalCommand env line) (fun r w' => r = reply ∧ w' = w) w) (w : World σ) :
      exec env line w = (reply.getD .unknownErr, w) := by
    obtain ⟨hvalue, hfinal⟩ := (wp_iff _ _ w).mp (hrun w)
    rw [exec, hvalue, hfinal]
  rcases line with _ | ⟨name, args⟩
  · exact ⟨_, hexec none fun w => by simp [execNormalCommand, findCommand]⟩
  · cases hc : cmdTable (toLower (text name)) with
    | none =>
        refine ⟨_, hexec (some (.standardErr
          (bytes "ERR unknown command '" ++ toLower (text name) ++ bytes "'"))) fun w => ?_⟩
        simp [execNormalCommand, findCommand, hc]
    | some c =>
        have harity : ¬ validateArity (command env c).arity (name :: args) = true :=
          fun harity => h ⟨name, args, c, rfl, hc, harity⟩
        refine ⟨_, hexec (some (.argNumErr (toLower (text name)))) fun w => ?_⟩
        simp [execNormalCommand, findCommand, hc, harity]

/-- One event keeps both servers together, unless it is a command that mistakes an expired key. -/
theorem step_instant_iff {s v : Server σ} (h : Shadows s v) (hwhole : s.world.db.Whole) (e : Event) :
    (e.AnsweredAlike env s v ∧ Shadows (s.step env e) (v.stepInstant env e)) ↔ ¬ e.Mistaken env s := by
  obtain ⟨vnow, vworld⟩ := v
  obtain ⟨rfl, hslots⟩ := h
  cases e with
  | pass d =>
      refine iff_of_true ⟨trivial, rfl, fun key => ?_⟩ id
      have hle : s.now ≤ s.now + d := Int.le_add_of_nonneg_right (Int.natCast_nonneg d)
      calc (purge (env.atTime (s.now + d)) vworld).db.slot key
          = (vworld.db.slot key).evict (s.now + d) := slot_purge _ key
        _ = ((s.world.db.slot key).evict s.now).evict (s.now + d) := by rw [hslots key]
        _ = (s.world.db.slot key).evict (s.now + d) := Slot.evict_evict_of_le hle _
  | expire key =>
      refine iff_of_true ⟨trivial, ?_⟩ id
      rw [Server.step]
      split
      · next he =>
          refine ⟨rfl, fun k => ?_⟩
          change vworld.db.slot k = ((s.world.db.remove key).slot k).evict s.now
          rw [hslots k, DB.slot_remove]
          split
          · next hk =>
              subst hk
              rw [DB.isExpired_slot] at he
              have hdata : (s.world.db.slot k).data.isSome = true := by
                rw [Option.isSome_iff_ne_none]
                intro hnone
                rw [Slot.isExpired, hwhole k hnone] at he
                exact Bool.false_ne_true he
              exact if_pos ⟨hdata, he⟩
          · rfl
      · exact ⟨rfl, hslots⟩
  | command line =>
      by_cases hline : ∃ name args c, line = name :: args ∧ cmdTable (toLower (text name)) = some c ∧
          validateArity (command (env.atTime s.now) c).arity line = true
      · obtain ⟨name, args, c, rfl, hc, harity⟩ := hline
        have hmistaken : Event.Mistaken env s (.command (name :: args)) ↔
            Mistakes (env.atTime s.now) s.world c args := by
          constructor
          · rintro ⟨name', args', c', ⟨⟩, hc', -, hm⟩
            obtain rfl := Option.some.inj (hc.symm.trans hc')
            exact hm
          · exact fun hm => ⟨name, args, c, rfl, hc, harity, hm⟩
        rw [hmistaken, ← exec_instant_iff hslots hc harity]
        refine and_congr_right fun _ => ?_
        have hpurged (key : Bytes) :
            (purge (env.atTime s.now) (exec (env.atTime s.now) (name :: args) vworld).2).db.slot key = _ :=
          slot_purge _ key
        constructor
        · exact fun h key => (hpurged key).symm.trans (h.2 key)
        · exact fun h => ⟨rfl, fun key => (hpurged key).trans (h key)⟩
      · obtain ⟨reply, hexec⟩ := exec_rejects hline
        refine iff_of_true ⟨?_, rfl, fun key => ?_⟩ ?_
        · exact .inl (by rw [hexec, hexec])
        · change (purge (env.atTime s.now) (exec (env.atTime s.now) line vworld).2).db.slot key =
            ((exec (env.atTime s.now) line s.world).2.db.slot key).evict s.now
          rw [slot_purge, hexec, hexec]
          exact (congrArg (Slot.evict · s.now) (hslots key)).trans (Slot.evict_evict _ _)
        · rintro ⟨name, args, c, hname, hc, harity, -⟩
          exact hline ⟨name, args, c, hname, hc, harity⟩

theorem afterInstant_concat (env : Env σ) (now : Int) (before : List Event) (e : Event) :
    Server.afterInstant env now (before ++ [e]) =
      (Server.afterInstant env now before).stepInstant env e := List.foldl_append

/-- All along a run, whenever the wheel comes round, the server answers as one on which keys are gone
when their expiration passes, and holds the same keys but for the expired ones, if and only if no
command mistakes an expired key. -/
theorem expires_at_once_iff (env : Env σ) (now : Int) (events : List Event)
    (h : ∀ before e, before ++ [e] <+: events → ¬ e.Orphans env (Server.after env now before)) :
    (∀ before e, before ++ [e] <+: events →
        e.AnsweredAlike env (Server.after env now before) (Server.afterInstant env now before) ∧
        Shadows (Server.after env now (before ++ [e])) (Server.afterInstant env now (before ++ [e]))) ↔
      ∀ before e, before ++ [e] <+: events → ¬ e.Mistaken env (Server.after env now before) := by
  apply Lib.Runs.all_along_iff fun before =>
    Shadows (Server.after env now before) (Server.afterInstant env now before)
  · exact ⟨rfl, fun key => rfl⟩
  · intro before e hbefore hshadows
    have hwhole := whole_after h before ((List.prefix_append before [e]).trans hbefore)
    rw [after_concat, afterInstant_concat]
    exact step_instant_iff hshadows hwhole e

end

def shortLived : List Event :=
  [.command (["SET", "k", "v", "PX", "1"].map fun word => some (bytes word)), .pass 2000000, .expire (bytes "k"),
    .command (["GET", "k"].map fun word => some (bytes word))]

theorem expires_at_once_iff_shortLived :
    (∀ before e, before ++ [e] <+: shortLived →
        e.AnsweredAlike (.plain 0) (Server.after (.plain 0) 0 before) (Server.afterInstant (.plain 0) 0 before) ∧
        Shadows (Server.after (.plain 0) 0 (before ++ [e]))
          (Server.afterInstant (.plain 0) 0 (before ++ [e]))) ↔
      ∀ before e, before ++ [e] <+: shortLived → ¬ e.Mistaken (.plain 0) (Server.after (.plain 0) 0 before) := by
  refine expires_at_once_iff (.plain 0) 0 shortLived fun before e hbefore horphans => ?_
  have hmem : e ∈ shortLived := hbefore.subset (by simp)
  simp only [shortLived, List.mem_cons, List.not_mem_nil, or_false] at hmem
  rcases hmem with rfl | rfl | rfl | rfl
  · obtain ⟨name, args, c, hline, hc, -, hself⟩ := horphans
    obtain ⟨rfl, rfl⟩ := List.cons.inj hline
    obtain rfl : c = .set := Option.some.inj (hc.symm.trans (by decide))
    exact hself
  · exact horphans
  · exact horphans
  · obtain ⟨name, args, c, hline, hc, -, hself⟩ := horphans
    obtain ⟨rfl, rfl⟩ := List.cons.inj hline
    obtain rfl : c = .get := Option.some.inj (hc.symm.trans (by decide))
    exact hself

end Traitor.Database
