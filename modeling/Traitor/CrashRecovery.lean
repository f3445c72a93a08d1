import Traitor.Restart
import Traitor.TornLog

namespace Traitor.Database

open Lib.Effects Lib.Strconv Protocol

variable {σ : Type} [LinearOrder σ] [Inhabited σ] {env : Env σ} {T : Int} {key : Bytes}

inductive LogsOnce (w w' : World σ) : Prop
  | nothing (haof : w'.aof = w.aof)
  | line (line : CmdLine) (haof : w'.aof = w.aof ++ [line])

omit [LinearOrder σ] [Inhabited σ] in
theorem afterEdit_logs (w : World σ) (key : Bytes) (f : Slice → Option Slice) (line : CmdLine) :
    LogsOnce w (afterEdit env w key f line) := by
  rw [afterEdit]
  cases (w.db.slot key).string env.now with
  | error e => exact .nothing rfl
  | ok s =>
      dsimp only
      cases f s with
      | none => exact .nothing rfl
      | some v => exact .line _ rfl

omit [LinearOrder σ] [Inhabited σ] in
theorem expireCommand_logs (instant : Int → Int) (key rawTime : Slice) (rest : List Slice)
    (w : World σ) : LogsOnce w (final (expireCommand env instant (key :: rawTime :: rest)) w) := by
  rw [expireCommand_final]
  cases parseInt 64 (text rawTime) with
  | none => exact .nothing rfl
  | some n =>
      dsimp only
      split
      · exact .nothing rfl
      · exact .line _ rfl

omit [LinearOrder σ] [Inhabited σ] in
theorem execPersist_logs (key : Slice) (rest : List Slice) (w : World σ) :
    LogsOnce w (final (execPersist env (key :: rest)) w) := by
  rw [execPersist_final]
  dsimp only
  split
  · exact .nothing rfl
  · exact .line _ rfl

omit [LinearOrder σ] [Inhabited σ] in
theorem execGetSet_logs (key value : Slice) (rest : List Slice) (w : World σ) :
    LogsOnce w (final (execGetSet env (key :: value :: rest)) w) := by
  rw [execGetSet_final]
  cases (w.db.slot (text key)).string env.now with
  | error e => exact .nothing rfl
  | ok s => exact .line _ rfl

omit [LinearOrder σ] [Inhabited σ] in
theorem execGetEX_logs (key : Slice) (options : List Slice) (w : World σ) :
    LogsOnce w (final (execGetEX env (key :: options)) w) := by
  rw [execGetEX_final]
  cases (w.db.slot (text key)).string env.now with
  | error e => exact .nothing rfl
  | ok s =>
      cases s with
      | none => exact .nothing rfl
      | some s =>
          dsimp only
          cases (getExParse unlimitedTTL options).2 with
          | error e => exact .nothing rfl
          | ok ttl =>
              dsimp only
              by_cases ho : options = []
              · rw [if_pos ho]
                exact .nothing rfl
              · rw [if_neg ho]
                by_cases httl : ttl ≠ unlimitedTTL
                · rw [if_pos httl]
                  exact .line _ rfl
                · rw [if_neg httl]
                  exact .line _ rfl

theorem editor_logs {c : CommandName} (hc : c ∈ editors) (args : List Slice) (w : World σ) :
    LogsOnce w (final ((command env c).executor args) w) := by
  rw [editor_final hc]
  cases edited c args with
  | none => exact .nothing rfl
  | some p => exact afterEdit_logs w _ _ _

omit [LinearOrder σ] [Inhabited σ] in
theorem execDel_logs (args : List Slice) (w : World σ) : LogsOnce w (final (execDel args) w) := by
  obtain ⟨-, he | haof⟩ := execDel_final args w
  · exact .nothing (congrArg World.aof he)
  · exact .line _ haof

theorem command_logs {c : CommandName} (hc : c ∈ restartable) (hset : c ≠ .set) {name : Slice}
    {args : List Slice} (harity : validateArity (command env c).arity (name :: args) = true)
    (w : World σ) : LogsOnce w (final ((command env c).executor args) w) := by
  by_cases hedit : c ∈ editors
  · exact editor_logs hedit args w
  · rcases args with _ | ⟨key, _ | ⟨second, rest⟩⟩
    · simp only [restartable, List.mem_cons, List.not_mem_nil, or_false] at hc
      rcases hc with rfl | rfl | rfl | rfl | rfl | rfl | rfl | rfl | rfl | rfl | rfl | rfl | rfl |
        rfl | rfl <;> simp [validateArity, command] at harity
    · simp only [restartable, List.mem_cons, List.not_mem_nil, or_false] at hc
      rcases hc with rfl | rfl | rfl | rfl | rfl | rfl | rfl | rfl | rfl | rfl | rfl | rfl | rfl |
        rfl | rfl <;> try simp [validateArity, command] at harity
      · exact absurd (by decide) hedit
      · exact absurd (by decide) hedit
      · exact execDel_logs [key] w
      · exact execPersist_logs key [] w
      · exact execGetEX_logs key [] w
    · simp only [restartable, List.mem_cons, List.not_mem_nil, or_false] at hc
      rcases hc with rfl | rfl | rfl | rfl | rfl | rfl | rfl | rfl | rfl | rfl | rfl | rfl | rfl |
        rfl | rfl
      all_goals try exact absurd (by decide) hedit
      · exact absurd rfl hset
      · exact execGetSet_logs key second rest w
      · exact execDel_logs (key :: second :: rest) w
      · exact expireCommand_logs _ key second rest w
      · exact expireCommand_logs _ key second rest w
      · exact expireCommand_logs _ key second rest w
      · exact expireCommand_logs _ key second rest w
      · exact execPersist_logs key (second :: rest) w
      · exact execGetEX_logs key (second :: rest) w

/-- Cut off inside what a command hands on, the lines bring a load to where the database was
before or after it, or after it but for the expiration of a key. -/
def Breaks (env : Env σ) (T : Int) (w v w' : World σ) : Prop :=
  ∃ lines, w'.aof = w.aof ++ lines ∧ ∀ cut, cut <+: lines → cut ≠ [] →
    ∃ u, Tracks T u (loadAof (env.atTime T) cut v) ∧
      (u.db.slot = w'.db.slot ∨
        ∃ key, w'.db.ttlMap.lookup key ≠ none ∧ u.db.slot = (w'.db.persist key).slot)

theorem Follows.breaks {w v w' : World σ} (h : Follows env T w v w') (hlogs : LogsOnce w w') :
    Breaks env T w v w' := by
  obtain ⟨lines, haof, htracks⟩ := h
  refine ⟨lines, haof, fun cut hcut hne => ⟨w', ?_, .inl rfl⟩⟩
  have hshort : lines.length ≤ 1 := by
    cases hlogs with
    | nothing hsame =>
        rw [hsame] at haof
        have hnil : lines = [] := by simpa using haof
        simp [hnil]
    | line line hline =>
        rw [hline, List.append_cancel_left_eq] at haof
        simp [← haof]
  have hpos := List.length_pos_iff.mpr hne
  have hlen := hcut.length_le
  rwa [hcut.eq_of_length (by omega)]

theorem execSet_breaks {w v : World σ} (key value : Slice) (options : List Slice) (h : Tracks T w v)
    (hm : ∀ policy ttl, setOptions .upsert unlimitedTTL options = .ok (policy, ttl) →
      policy.allows (w.db.slot (text key)).data.isSome = true →
        if ttl ≠ unlimitedTTL then Dated T (after env ttl)
        else policy.Replays T (lingering (text key) w.aof) (w.db.slot (text key))) :
    Breaks env T w v (final (execSet env (key :: value :: options)) w) := by
  have hfollows := execSet_follows key value options h hm
  have hfinal := @execSet_final _ env key value options w
  cases ho : setOptions .upsert unlimitedTTL options with
  | error e =>
      rw [ho] at hfinal
      exact hfollows.breaks (.nothing (congrArg World.aof hfinal))
  | ok p =>
      obtain ⟨policy, ttl⟩ := p
      rw [ho] at hfinal
      dsimp only at hfinal
      by_cases hallows : policy.allows (w.db.slot (text key)).data.isSome = true
      · rw [if_pos hallows] at hfinal
        by_cases httl : ttl ≠ unlimitedTTL
        · rw [if_pos httl] at hfinal
          rw [hfinal] at hfollows ⊢
          obtain ⟨lines, haof, htracks⟩ := hfollows
          rw [List.append_cancel_left_eq] at haof
          subst haof
          refine ⟨_, rfl, fun cut hcut hne => ?_⟩
          obtain ⟨line, cut, rfl⟩ := List.exists_cons_of_ne_nil hne
          obtain ⟨rfl, hrest⟩ := List.cons_prefix_cons.mp hcut
          rcases List.prefix_cons_iff.mp hrest with rfl | ⟨cut', rfl, hcut'⟩
          · -- the expiration is on its way, the value is there
            let set : World σ := ⟨(w.db.put (text key) (.str value)).persist (text key),
              w.aof ++ [cmdLine3 "SET" [key, value]]⟩
            have hset : Follows env T w v set :=
              write_follows rfl (by decide) h rfl rfl rfl fun k => by
                by_cases hk : k = text key <;> simp [set, hk]
            obtain ⟨lines, haof, hset⟩ := hset
            rw [List.append_cancel_left_eq] at haof
            subst haof
            refine ⟨set, hset, .inr ⟨text key, by simp [DB.expire], ?_⟩⟩
            funext k
            by_cases hk : k = text key <;> simp [set, hk]
          · obtain rfl := List.prefix_nil.mp hcut'
            exact ⟨_, htracks, .inl rfl⟩
        · rw [if_neg httl] at hfinal
          exact hfollows.breaks (.line _ (congrArg World.aof hfinal))
      · rw [if_neg hallows] at hfinal
        exact hfollows.breaks (.nothing (congrArg World.aof hfinal))

theorem command_breaks {c : CommandName} (hc : c ∈ restartable) {name : Slice} {args : List Slice}
    {w v : World σ} (harity : validateArity (command env c).arity (name :: args) = true)
    (h : Tracks T w v) (ht : env.now ≤ T) (hm : Survives env T w c args) :
    Breaks env T w v (final ((command env c).executor args) w) := by
  by_cases hset : c = .set
  · subst hset
    rcases args with _ | ⟨key, _ | ⟨value, options⟩⟩
    · simp [validateArity, command] at harity
    · simp [validateArity, command] at harity
    · exact execSet_breaks key value options h hm
  · exact (command_follows hc harity h ht hm).breaks (command_logs hc hset harity w)

theorem line_breaks {s : Server σ} {line : CmdLine} (hr : (Event.command line).Restartable)
    (hs : (Event.command line).Survives env T s) (ht : s.now ≤ T) {v : World σ}
    (h : Tracks T s.world v) : Breaks env T s.world v (exec (env.atTime s.now) line s.world).2 := by
  cases line with
  | nil =>
      rw [exec_nil]
      exact (h.follows rfl).breaks (.nothing rfl)
  | cons name args =>
      cases hc : cmdTable (toLower (text name)) with
      | none =>
          rw [exec_unknown hc]
          exact (h.follows rfl).breaks (.nothing rfl)
      | some c =>
          by_cases harity : validateArity (command (env.atTime s.now) c).arity (name :: args) = true
          · obtain ⟨versionMap, hw⟩ := exec_command (w := s.world) hc harity
            rw [hw]
            exact command_breaks (w := s.world.versions versionMap) (hr c hc) harity h ht (hs c hc)
          · rw [exec_badArity hc (Bool.not_eq_true _ ▸ harity)]
            exact (h.follows rfl).breaks (.nothing rfl)

theorem step_breaks {s : Server σ} {e : Event} (hr : e.Restartable) (hs : e.Survives env T s)
    (ht : s.now ≤ T) (h : Tracks T s.world (loadAof (env.atTime T) s.world.aof .empty)) :
    Breaks env T s.world (loadAof (env.atTime T) s.world.aof .empty) (s.step env e).world := by
  cases e with
  | pass d => exact (h.follows rfl).breaks (.nothing rfl)
  | command line => exact line_breaks hr hs ht h
  | expire key =>
      have htracks := step_tracks (e := .expire key) hr hs ht h
      have haof : (s.step env (.expire key)).world.aof = s.world.aof := by
        rw [Server.step]
        split <;> rfl
      rw [haof] at htracks
      exact (htracks.follows haof).breaks (.nothing haof)

/-- The condition under which a load at the time follows an event. -/
def Durable (env : Env σ) (T : Int) (s : Server σ) (e : Event) : Prop :=
  e.Restartable ∧ e.Survives env T s

theorem tracks_of_reaches {now : Int} {s : Server σ}
    (hrun : Reaches env (Durable env T) ⟨now, .empty⟩ s) (ht : s.now ≤ T) :
    Tracks T s.world (loadAof (env.atTime T) s.world.aof .empty) := by
  induction hrun with
  | refl => exact fun key => .cleared
  | tail hrun hstep ih =>
      obtain ⟨e, ⟨hr, hs⟩, rfl⟩ := hstep
      have hle := Int.le_trans (now_le_step _ e) ht
      exact step_tracks hr hs hle (ih hle)

omit [LinearOrder σ] [Inhabited σ] in
theorem SeenAlike.of_slot {v w w' : World σ} (h : w.db.slot = w'.db.slot) (hv : SeenAlike env T v w) :
    SeenAlike env T v w' := by
  intro key
  have hkey := hv key
  have hlookup (db : DB σ) : db.ttlMap.lookup key = (db.slot key).ttl := rfl
  rw [DB.live_slot, DB.live_slot, hlookup w.db, h] at hkey
  rwa [DB.live_slot, DB.live_slot, hlookup w'.db]

/-- A load comes to the database as it was in a state, or to that but for the expiration
that the last command set. -/
def Salvages (env : Env σ) (T : Int) (v : World σ) (s : Server σ) : Prop :=
  SeenAlike env T v s.world ∨
    ∃ key, s.world.db.ttlMap.lookup key ≠ none ∧
      SeenAlike env T v { s.world with db := s.world.db.persist key }

/-- Every first part of the log brings a load to a state that the run went through. -/
theorem cut_salvages {now : Int} {t : Server σ}
    (hrun : Reaches env (Durable env T) ⟨now, .empty⟩ t) (ht : t.now ≤ T) {cut : List CmdLine}
    (hcut : cut <+: t.world.aof) :
    ∃ s, Reaches env (Durable env T) ⟨now, .empty⟩ s ∧ Reaches env (Durable env T) s t ∧
      Salvages env T (loadAof (env.atTime T) cut .empty) s := by
  induction hrun with
  | refl =>
      obtain rfl : cut = [] := List.prefix_nil.mp hcut
      exact ⟨⟨now, .empty⟩, .refl, .refl, .inl fun key => ⟨rfl, fun _ => rfl⟩⟩
  | @tail s t hrun hstep ih =>
      have hlast : Reaches env (Durable env T) s t := .single hstep
      obtain ⟨e, ⟨hr, hs⟩, rfl⟩ := hstep
      have hle := Int.le_trans (now_le_step s e) ht
      by_cases hbefore : cut <+: s.world.aof
      · obtain ⟨s', hreach, hreach', hsalvages⟩ := ih hle hbefore
        exact ⟨s', hreach, hreach'.trans hlast, hsalvages⟩
      · -- the cut is among the lines of the last event
        obtain ⟨lines, haof, hbreaks⟩ := step_breaks hr hs hle (tracks_of_reaches hrun hle)
        rw [haof] at hcut
        obtain ⟨rest, rfl⟩ := (List.prefix_or_prefix_of_prefix hcut
          (List.prefix_append _ _)).resolve_left hbefore
        have hrest := (List.prefix_append_right_inj _).mp hcut
        have hne : rest ≠ [] := by
          rintro rfl
          exact hbefore (by simp)
        obtain ⟨u, htracks, hu⟩ := hbreaks rest hrest hne
        rw [← loadAof_append] at htracks
        refine ⟨_, hrun.trans hlast, .refl, ?_⟩
        rcases hu with hslot | ⟨key, httl, hslot⟩
        · exact .inl (htracks.seenAlike.of_slot hslot)
        · exact .inr ⟨key, httl, htracks.seenAlike.of_slot hslot⟩

/-- After a crash that leaves any number of bytes of the log, a load comes to a state that
the run went through, or at worst misses the expiration that its last command set. -/
theorem crash_salvages {now : Int} {t : Server σ}
    (hrun : Reaches env (Durable env T) ⟨now, .empty⟩ t) (ht : t.now ≤ T) {lines : List (List Bytes)}
    (hlog : t.world.aof = commands lines) (hread : ∀ line ∈ lines, LoadsAsWritten line) (n : Nat) :
    ∃ s, Reaches env (Durable env T) ⟨now, .empty⟩ s ∧ Reaches env (Durable env T) s t ∧
      Salvages env T (loadFile (env.atTime T) 0 ((file lines).take n) .empty) s := by
  rw [loadFile_take _ hread]
  apply cut_salvages hrun ht
  rw [hlog]
  exact (Codec.whole_beginning n lines).map _

def setLine : List Bytes := [bytes "set", bytes "k", bytes "v"]

/-- Five bytes of the only line are left. -/
theorem crash_salvages_setLine :
    ∃ s, Reaches (Env.plain 0) (Durable (.plain 0) 0) ⟨0, .empty⟩ s ∧
      Reaches (Env.plain 0) (Durable (.plain 0) 0) s
        ⟨0, (exec (.plain 0) (setLine.map some) .empty).2⟩ ∧
      Salvages (.plain 0) 0 (loadFile (.plain 0) 0 ((file [setLine]).take 5) .empty) s := by
  have hdurable : Durable (Env.plain 0) 0 ⟨0, .empty⟩ (.command (setLine.map some)) := by
    constructor
    · rintro c ⟨⟩
      decide
    · rintro c ⟨⟩ policy ttl ⟨⟩ -
      exact trivial
  have hlog : (exec (Env.plain 0) (setLine.map some) .empty).2.aof = commands [setLine] :=
    set_aof (some (bytes "k")) (some (bytes "v")) .empty
  refine crash_salvages (.single ⟨_, hdurable, rfl⟩) (by decide) hlog ?_ 5
  intro line hline
  obtain rfl := List.mem_singleton.mp hline
  exact ⟨_, _, rfl, by decide, by decide⟩

end Traitor.Database
