import Traitor.Reads
import Traitor.Transaction

namespace Traitor.Database

open Lib.Effects Lib.Strconv Protocol

variable {σ : Type} {env : Env σ} {w : World σ} {key : Bytes}

theorem getAs_runs {α : Type} (h : w.db.isExpired env key = false) (view : Entity σ → Option α) :
    Runs (getAs env view key) w (w.db.view env view key) w := by
  have hevict : w.db.evict env key = w.db := by
    rw [DB.evict, if_neg]
    rw [h]
    simp
  have hwp : wp (getAs env view key) (fun r u => r = some (w.db.view env view key) ∧ u = w) w := by
    rw [wp_getAs, hevict]
    exact ⟨rfl, rfl⟩
  obtain ⟨hvalue, hfinal⟩ := (wp_iff _ _ _).mp hwp
  have hrun := Runs.of_value hvalue
  rwa [hfinal] at hrun

theorem modifyDB_runs (f : DB σ → DB σ) (w : World σ) :
    Runs (modifyDB f) w ⟨⟩ { w with db := f w.db } := .of_modify _ w

theorem putEntity_runs (key : Bytes) (entity : Entity σ) (w : World σ) :
    Runs (putEntity key entity) w ⟨⟩ { w with db := w.db.put key entity } := modifyDB_runs _ w

theorem remove_runs (key : Bytes) (w : World σ) :
    Runs (remove key) w ⟨⟩ { w with db := w.db.remove key } := modifyDB_runs _ w

theorem addAof_runs (line : CmdLine) (w : World σ) :
    Runs (addAof line) w ⟨⟩ { w with aof := w.aof ++ [line] } := .of_modify _ w

structure SetAt (env : Env σ) (w : World σ) (key : Bytes) (held : Option (Finset Bytes)) : Prop where
  data : w.db.data.lookup key = held.map .set
  fresh : w.db.isExpired env key = false

def membersOf (held : Option (Finset Bytes)) : Finset Bytes := held.getD ∅

section

variable {held : Option (Finset Bytes)} {s : Finset Bytes}

theorem SetAt.view (h : SetAt env w key held) : w.db.view env Entity.asSet key = .ok held := by
  have hlive : w.db.live env key = held.map .set := by
    rw [DB.live, h.fresh, if_neg Bool.false_ne_true, h.data]
  rw [DB.view, hlive]
  cases held <;> rfl

theorem SetAt.getAs (h : SetAt env w key held) : Runs (getAsSet env key) w (.ok held) w :=
  h.view ▸ getAs_runs h.fresh Entity.asSet

theorem SetAt.aof (h : SetAt env w key held) (lines : List CmdLine) :
    SetAt env { w with aof := lines } key held := ⟨h.data, h.fresh⟩

theorem SetAt.put (h : SetAt env w key held) (s : Finset Bytes) :
    SetAt env { w with db := w.db.put key (.set s) } key (some s) :=
  ⟨Finmap.lookup_insert _, h.fresh⟩

theorem SetAt.remove (w : World σ) (key : Bytes) :
    SetAt env { w with db := w.db.remove key } key none := by
  refine ⟨Finmap.lookup_erase _ _, ?_⟩
  rw [DB.isExpired, DB.remove, Finmap.lookup_erase]

def Sets {α : Type} (env : Env σ) (m : Exec σ α) (w : World σ) (key : Bytes)
    (held : Option (Finset Bytes)) : Prop := ∃ a t, Runs m w a t ∧ SetAt env t key held

theorem Sets.pure {α : Type} (h : SetAt env w key held) (a : α) : Sets env (Pure.pure a) w key held :=
  ⟨a, w, .pure a w, h⟩

theorem Sets.bind {α β : Type} {m : Exec σ α} {f : α → Exec σ β} {a : α} {t : World σ}
    (hm : Runs m w a t) (hf : Sets env (f a) t key held) : Sets env (m >>= f) w key held := by
  obtain ⟨b, u, hrun, hat⟩ := hf
  exact ⟨b, u, hm.bind hrun, hat⟩

theorem addMembers_fst (s : Finset Bytes) (members : List Bytes) (x : Bytes) :
    x ∈ (addMembers s members).1 ↔ x ∈ members ∨ x ∈ s := by
  induction members generalizing s with
  | nil => simp [addMembers]
  | cons member members ih =>
      rw [addMembers]
      dsimp only
      rw [ih, Finset.mem_insert, List.mem_cons]
      tauto

theorem removeMembers_fst (s : Finset Bytes) (members : List Bytes) (x : Bytes) :
    x ∈ (removeMembers s members).1 ↔ x ∈ s ∧ x ∉ members := by
  induction members generalizing s with
  | nil => simp [removeMembers]
  | cons member members ih =>
      rw [removeMembers]
      dsimp only
      rw [ih, Finset.mem_erase, List.mem_cons]
      tauto

/-- What `SADD` leaves. -/
theorem execSAdd_sets (h : SetAt env w key held) {first : Slice} (hfirst : text first = key)
    (members : List Slice) :
    Sets env (execSAdd env (first :: members)) w key
      (some (addMembers (membersOf held) (members.map text)).1) := by
  subst hfirst
  have hinit : ∃ t, Runs (getOrInitSet env (text first)) w (.ok (membersOf held)) t ∧
      SetAt env t (text first) (some (membersOf held)) := by
    cases held with
    | none =>
        refine ⟨_, h.getAs.bind ?_, h.put ∅⟩
        exact (putEntity_runs _ _ w).bind (.pure _ _)
    | some s => exact ⟨w, h.getAs.bind (.pure _ w), h⟩
  obtain ⟨t, hrun, hat⟩ := hinit
  exact .bind hrun (.bind (putEntity_runs _ _ t) (.bind (addAof_runs _ _) (.pure ((hat.put _).aof _) _)))

/-- What `SREM` leaves of a set that is there: an empty one is removed. -/
theorem execSRem_sets {first : Slice} (hfirst : text first = key) (h : SetAt env w key (some s))
    (members : List Slice) :
    ∃ held, Sets env (execSRem env (first :: members)) w key held ∧
      membersOf held = (removeMembers s (members.map text)).1 := by
  subst hfirst
  have haof (held : Option (Finset Bytes)) (t : World σ) (hat : SetAt env t (text first) held) (n : Int) :
      Sets env (do
        if 0 < n then addAof (cmdLine3 "srem" (first :: members))
        return Reply.int n) t (text first) held := by
    by_cases hn : 0 < n
    · rw [if_pos hn]
      exact .bind (addAof_runs _ t) (.pure (hat.aof _) _)
    · rw [if_neg hn]
      exact .pure hat _
  have hput := putEntity_runs (text first) (.set (removeMembers s (members.map text)).1) w
  by_cases hcard : (removeMembers s (members.map text)).1.card = 0
  · refine ⟨none, .bind h.getAs (.bind hput ?_), (Finset.card_eq_zero.mp hcard).symm⟩
    rw [if_pos hcard]
    exact .bind (remove_runs _ _) (haof none _ (.remove _ _) _)
  · refine ⟨some (removeMembers s (members.map text)).1, .bind h.getAs (.bind hput ?_), rfl⟩
    rw [if_neg hcard]
    exact haof _ _ (h.put _) _

theorem execSRem_absent (h : SetAt env w key none) {first : Slice} (hfirst : text first = key)
    (members : List Slice) : Sets env (execSRem env (first :: members)) w key none := by
  subst hfirst
  exact .bind h.getAs (.pure h _)

/-- A set as it is left by `SPOP`, which does not remove an empty one. -/
theorem popMembers_sets (h : SetAt env w key (some s)) {first : Slice} (hfirst : text first = key)
    {rest : List Slice} {count : Int} (hcount : popCount rest = some count) {popped : List Bytes}
    (hpopped : randomKeys env.choices s (if s.card < count then s.card else count) = some popped) :
    Sets env (popMembers env first rest) w key (some (removeMembers s popped).1) := by
  subst hfirst
  rw [popMembers]
  refine .bind h.getAs ?_
  simp only [hcount]
  generalize (if (s.card : Int) < count then (s.card : Int) else count) = n at hpopped ⊢
  rw [hpopped]
  refine .bind (putEntity_runs _ _ w) ?_
  split
  · exact .bind (addAof_runs _ _) (.pure ((h.put _).aof _) _)
  · exact .pure (h.put _) _

theorem popMembers_absent (h : SetAt env w key none) {first : Slice} (hfirst : text first = key)
    (rest : List Slice) : Sets env (popMembers env first rest) w key none := by
  subst hfirst
  exact .bind h.getAs (.pure h _)

/-- A set is rolled back by one line for each member that is named. -/
theorem rollbackSetMembers_runs (h : SetAt env w key (some s)) (members : List Bytes) :
    Runs (rollbackSetMembers env key members) w (members.map fun member =>
      if member ∈ s then cmdLine "SADD" [key, member] else cmdLine "SREM" [key, member]) w := by
  have hlines : members.mapM (fun member => some
      (if member ∈ s then cmdLine "SADD" [key, member] else cmdLine "SREM" [key, member])) =
      some (members.map fun member =>
        if member ∈ s then cmdLine "SADD" [key, member] else cmdLine "SREM" [key, member]) := by
    induction members with
    | nil => rfl
    | cons member members ih =>
        rw [List.mapM_cons, ih]
        rfl
  rw [rollbackSetMembers, rollbackItems]
  apply h.getAs.bind
  dsimp only
  rw [hlines]
  exact .pure _ w

theorem rollbackSetMembers_absent (h : SetAt env w key none) (members : List Bytes) :
    Runs (rollbackSetMembers env key members) w [cmdLine "DEL" [key]] w :=
  h.getAs.bind (.pure _ w)

def SetBack (held : Option (Finset Bytes)) (key : Bytes) (t : World σ) : Prop :=
  ∃ held', t.db.data.lookup key = held'.map .set ∧ membersOf held' = membersOf held ∧
    (held = none → held' = none)

theorem setBack_iff {held held' : Option (Finset Bytes)} {t : World σ} (h : SetAt env t key held') :
    SetBack held key t ↔ membersOf held' = membersOf held ∧ (held = none → held' = none) := by
  constructor
  · rintro ⟨held₂, hdata, hmembers, hnone⟩
    have heq : held' = held₂ := Option.map_injective (fun _ _ h => by cases h; rfl)
      (h.data.symm.trans hdata)
    exact heq ▸ ⟨hmembers, hnone⟩
  · exact fun hback => ⟨held', h.data, hback⟩

end

section

variable [LinearOrder σ] [Inhabited σ] {held : Option (Finset Bytes)} {s : Finset Bytes}

/-- The line of a command is run by its executor. -/
theorem execWithLock_line {name : Slice} {args : List Slice} {c : CommandName}
    (hc : cmdTable (toLower (text name)) = some c)
    (harity : validateArity (command env c).arity (name :: args) = true) :
    execWithLock env (name :: args) = (command env c).executor args := by
  have hfind : findCommand env (name :: args) = pure (.ok (c, args)) := by
    rw [findCommand]
    simp only [hc, harity, if_true]
  rw [execWithLock, hfind, pure_bind]

theorem execUndo_cons {line : CmdLine} {lines : List CmdLine} {held' : Option (Finset Bytes)}
    (hline : Sets env (execWithLock env line) w key held)
    (hlines : ∀ t, SetAt env t key held → Sets env (Transaction.execUndo env lines) t key held') :
    Sets env (Transaction.execUndo env (line :: lines)) w key held' := by
  obtain ⟨reply, t, hrun, hat⟩ := hline
  exact .bind hrun (hlines t hat)

/-- The line for one member of the set puts it in, and that for another one takes it out. -/
theorem restoreLine_sets (h : SetAt env w key held) (s : Finset Bytes) (member : Bytes) :
    ∃ held', Sets env (execWithLock env (if member ∈ s then cmdLine "SADD" [key, member]
        else cmdLine "SREM" [key, member])) w key held' ∧
      ∀ x, x ∈ membersOf held' ↔ if x = member then x ∈ s else x ∈ membersOf held := by
  by_cases hmember : member ∈ s
  · have hline : execWithLock env (cmdLine "SADD" [key, member]) = execSAdd env [some key, some member] :=
      execWithLock_line (c := .sAdd) (by decide) rfl
    rw [if_pos hmember, hline]
    refine ⟨_, execSAdd_sets h rfl [some member], fun x => ?_⟩
    change x ∈ (addMembers _ [member]).1 ↔ _
    rw [addMembers_fst, List.mem_singleton]
    by_cases hx : x = member
    · rw [if_pos hx, hx]
      simp [hmember]
    · rw [if_neg hx]
      simp [hx]
  · have hline : execWithLock env (cmdLine "SREM" [key, member]) = execSRem env [some key, some member] :=
      execWithLock_line (c := .sRem) (by decide) rfl
    rw [if_neg hmember, hline]
    cases held with
    | none =>
        refine ⟨none, execSRem_absent h rfl _, fun x => ?_⟩
        by_cases hx : x = member
        · rw [if_pos hx, hx]
          simp [membersOf, hmember]
        · rw [if_neg hx]
    | some s' =>
        obtain ⟨held', hsets, hmembers⟩ := @execSRem_sets _ _ _ _ _ (some key) rfl h [some member]
        refine ⟨held', hsets, fun x => ?_⟩
        change membersOf held' = (removeMembers s' [member]).1 at hmembers
        rw [hmembers, removeMembers_fst, List.mem_singleton]
        by_cases hx : x = member
        · rw [if_pos hx, hx]
          simp [hmember]
        · rw [if_neg hx]
          simp [hx, membersOf]

/-- After the lines the named members are as they were before. -/
theorem restoreLines_sets (h : SetAt env w key held) (s : Finset Bytes) (members : List Bytes) :
    ∃ held', Sets env (Transaction.execUndo env (members.map fun member =>
        if member ∈ s then cmdLine "SADD" [key, member] else cmdLine "SREM" [key, member])) w key held' ∧
      ∀ x, x ∈ membersOf held' ↔ if x ∈ members then x ∈ s else x ∈ membersOf held := by
  induction members generalizing w held with
  | nil => exact ⟨held, .pure h _, fun x => by simp⟩
  | cons member members ih =>
      obtain ⟨held₁, ⟨reply, t, hrun, hat⟩, hmembers₁⟩ := restoreLine_sets h s member
      obtain ⟨held₂, hlines, hmembers₂⟩ := ih hat
      refine ⟨held₂, .bind hrun hlines, fun x => ?_⟩
      rw [hmembers₂, hmembers₁]
      by_cases hx : x = member <;> by_cases hxs : x ∈ members <;> simp [hx, hxs]

/-- A key that was not there is deleted. -/
theorem delLine_sets (h : SetAt env w key held) :
    Sets env (Transaction.execUndo env [cmdLine "DEL" [key]]) w key none := by
  have hline : execWithLock env (cmdLine "DEL" [key]) = execDel [some key] :=
    execWithLock_line (c := .del) (by decide) rfl
  refine execUndo_cons ?_ fun t hat => .pure hat _
  rw [hline]
  have hhas : Runs (has key) w (w.db.data.lookup key).isSome w := rfl
  cases held with
  | none =>
      have hremoves : Runs (removes [key]) w 0 w := by
        rw [h.data] at hhas
        exact hhas.bind (.pure 0 w)
      exact .bind hremoves (.pure h _)
  | some s =>
      have hremoves : Runs (removes [key]) w 1 { w with db := w.db.remove key } := by
        rw [h.data] at hhas
        exact hhas.bind ((remove_runs key w).bind (.pure 1 _))
      exact .bind hremoves (.bind (addAof_runs _ _) (.pure ((SetAt.remove w key).aof _) _))

/-- `SPOP` pops nothing, or just the member that its count spells: it is the only one there is, or
the first one that the iteration over the map comes to. -/
def PopsItsCount (c : Choices) (s : Finset Bytes) (rest : List Slice) : Prop :=
  s = ∅ ∨ ∃ rawCount, rest = [rawCount] ∧ (s = {text rawCount} ∨
    popCount [rawCount] = some 1 ∧ (c.order s).head? = some (text rawCount))

def PutsBack (c : CommandName) (choices : Choices) (held : Option (Finset Bytes)) (rest : List Slice) : Prop :=
  c = .sPop → PopsItsCount choices (membersOf held) rest

def UndoneIff (env : Env σ) (undo : Exec σ (List CmdLine)) (m : Exec σ Reply) (w : World σ) (key : Bytes)
    (held : Option (Finset Bytes)) (P : Prop) : Prop :=
  ∃ lines, Runs undo w lines w ∧ ∃ t, Runs (Transaction.execUndo env lines) (final m w) ⟨⟩ t ∧
    (SetBack held key t ↔ P)

/-- A key that is absent is so again. -/
theorem absent_undone {first : Slice} {rest : List Slice} (hfirst : text first = key)
    (h : SetAt env w key none) {m : Exec σ Reply} {held' : Option (Finset Bytes)}
    (hm : Sets env m w key held') {P : Prop} (hP : P) :
    UndoneIff env (undoSetChange env (first :: rest)) m w key none P := by
  subst hfirst
  obtain ⟨reply, t, hrun, hat⟩ := hm
  obtain ⟨⟨⟩, u, hlines, hat'⟩ := delLine_sets hat
  refine ⟨_, rollbackSetMembers_absent h _, u, hrun.final ▸ hlines, iff_of_true ?_ hP⟩
  exact (setBack_iff hat').mpr ⟨rfl, fun _ => rfl⟩

/-- Of a set that was there, the members that are not named have to be there still. -/
theorem present_undone {first : Slice} {rest : List Slice} (hfirst : text first = key)
    (h : SetAt env w key (some s)) {m : Exec σ Reply} {held' : Option (Finset Bytes)}
    (hm : Sets env m w key held') {P : Prop}
    (hP : (∀ x ∉ rest.map text, x ∈ membersOf held' ↔ x ∈ s) ↔ P) :
    UndoneIff env (undoSetChange env (first :: rest)) m w key (some s) P := by
  subst hfirst
  obtain ⟨reply, t, hrun, hat⟩ := hm
  obtain ⟨held₂, ⟨⟨⟩, u, hlines, hat'⟩, hmembers⟩ := restoreLines_sets hat s (rest.map text)
  refine ⟨_, rollbackSetMembers_runs h _, u, hrun.final ▸ hlines, ?_⟩
  rw [setBack_iff hat', ← hP, and_iff_left (by simp), Finset.ext_iff]
  apply forall_congr'
  intro x
  rw [hmembers]
  by_cases hx : x ∈ rest.map text
  · rw [if_pos hx]
    exact iff_of_true Iff.rfl (fun hn => absurd hx hn)
  · rw [if_neg hx]
    exact ⟨fun heq _ => heq, fun himp => himp hx⟩

end

section

variable {c : Choices} {s : Finset Bytes} {rest : List Slice}

theorem popsItsCount_nil : PopsItsCount c s [] ↔ s = ∅ := by simp [PopsItsCount]

theorem popsItsCount_single {rawCount : Slice} : PopsItsCount c s [rawCount] ↔
    s = ∅ ∨ s = {text rawCount} ∨ popCount [rawCount] = some 1 ∧ (c.order s).head? = some (text rawCount) := by
  simp [PopsItsCount]

/-- Where the count is not below the size, all members are popped. -/
theorem all_named_iff {count : Int} (hcount : popCount rest = some count) (hlen : rest.length ≤ 1)
    (hcard : (s.card : Int) ≤ count) :
    (∀ x ∈ s, x ∈ rest.map text) ↔ PopsItsCount c s rest := by
  match rest, hlen with
  | [], _ =>
      rw [popsItsCount_nil, Finset.eq_empty_iff_forall_notMem]
      simp
  | [rawCount], _ =>
      rw [popsItsCount_single, ← or_assoc, ← Finset.subset_singleton_iff]
      constructor
      · exact fun h => .inl fun x hx => by simpa using h x hx
      · rintro (hsub | ⟨hone, hhead⟩) x hx
        · simpa using hsub hx
        · have hmem : text rawCount ∈ s := (c.mem_order s _).mp (List.mem_of_mem_head? (hhead ▸ rfl))
          have hle : s.card ≤ 1 := by
            rw [hcount] at hone
            cases hone
            exact_mod_cast hcard
          simpa using Finset.card_le_one.mp hle x hx _ hmem

/-- Below the size, as many are popped as the count says. -/
theorem first_named_iff {count : Nat} (hcount : popCount rest = some (count : Int)) (hpos : 1 ≤ count)
    (hlen : rest.length ≤ 1) (hcard : count < s.card) :
    (∀ x ∈ (c.order s).take count, x ∈ rest.map text) ↔ PopsItsCount c s rest := by
  have hne : s ≠ ∅ := by
    rintro rfl
    simp at hcard
  have hnodup := c.order_nodup s
  have horder := c.length_order s
  obtain ⟨count, rfl⟩ := Nat.exists_eq_add_of_le' hpos
  obtain ⟨a, l, hl⟩ : ∃ a l, c.order s = a :: l :=
    List.exists_cons_of_length_pos (by omega)
  match rest, hlen with
  | [], _ =>
      rw [popsItsCount_nil, hl]
      exact iff_of_false (fun h => by simpa using h a (by simp)) hne
  | [rawCount], _ =>
      rw [popsItsCount_single, hcount, hl]
      constructor
      · intro h
        have ha : a = text rawCount := by simpa using h a (by simp)
        refine .inr (.inr ⟨?_, by rw [ha]; rfl⟩)
        cases count with
        | zero => rfl
        | succ count =>
            rw [hl] at horder hnodup
            obtain ⟨b, l, rfl⟩ : ∃ b l', l = b :: l' :=
              List.exists_cons_of_length_pos (by simp at horder; omega)
            have hb : b = text rawCount := by simpa using h b (by simp)
            simp [ha, hb] at hnodup
      · rintro (hs | hs | ⟨hone, hhead⟩) x hx
        · exact absurd hs hne
        · rw [hs, Finset.card_singleton] at hcard
          omega
        · obtain rfl : count = 0 := by
            have hcast := Option.some.inj hone
            omega
          have hxa : x = a := by simpa using hx
          rw [hxa, Option.some.inj hhead]
          simp

theorem randomKeys_some (c : Choices) (s : Finset Bytes) {limit : Int} (hlimit : 0 ≤ limit) :
    ∃ l, randomKeys c s limit = some l := by
  by_cases hcard : (s.card : Int) ≤ limit
  · exact ⟨_, if_pos hcard⟩
  · rw [randomKeys, if_neg hcard, if_neg (by omega)]
    exact ⟨_, rfl⟩

/-- All that is popped from the set is named only if it is the count. -/
theorem popped_named_iff {count : Int} (hcount : popCount rest = some count) (hlen : rest.length ≤ 1)
    {popped : List Bytes}
    (hpopped : randomKeys c s (if s.card < count then s.card else count) = some popped) :
    (∀ x ∉ rest.map text, x ∈ (removeMembers s popped).1 ↔ x ∈ s) ↔ PopsItsCount c s rest := by
  have hpos := popCount_pos hcount
  have hnamed : (∀ x ∉ rest.map text, x ∈ (removeMembers s popped).1 ↔ x ∈ s) ↔
      ∀ x ∈ s, x ∈ popped → x ∈ rest.map text := by
    apply forall_congr'
    intro x
    rw [removeMembers_fst]
    tauto
  rw [hnamed]
  by_cases hcard : (s.card : Int) ≤ count
  · have hmin : (if (s.card : Int) < count then (s.card : Int) else count) = s.card := by
      split <;> omega
    rw [hmin, randomKeys, if_pos (Int.le_refl _)] at hpopped
    cases hpopped
    rw [← all_named_iff hcount hlen hcard]
    refine forall_congr' fun x => forall_congr' fun hx => ?_
    rw [dictKeys, List.mem_append, c.mem_order]
    exact ⟨fun h => h (.inr hx), fun h _ => h⟩
  · rw [if_neg (by omega), randomKeys, if_neg hcard, if_neg (by omega)] at hpopped
    cases hpopped
    lift count to Nat using by omega
    rw [← first_named_iff hcount (by omega) hlen (by omega), Int.toNat_natCast]
    refine forall_congr' fun x => ⟨fun h hx => h ?_ hx, fun h _ => h⟩
    exact (c.mem_order s x).mp (List.mem_of_mem_take hx)

end

section

variable [LinearOrder σ] [Inhabited σ] {held : Option (Finset Bytes)} {name first : Slice} {rest : List Slice}
  {reply : Reply}

theorem sPop_undone {key : Bytes} (hfirst : text first = key) (h : SetAt env w key held)
    (hreply : value (execSPop env (first :: rest)) w = some reply) (hok : isErrorReply reply = false) :
    UndoneIff env (undoSetChange env (first :: rest)) (execSPop env (first :: rest)) w key held
      (PutsBack .sPop env.choices held rest) := by
  have hlen : rest.length ≤ 1 := by
    match rest with
    | [] | [_] => simp
    | _ :: _ :: _ =>
        cases hreply
        exact absurd hok (by decide)
  have hexec : execSPop env (first :: rest) = popMembers env first rest := by
    match rest, hlen with
    | [], _ | [_], _ => rfl
  rw [hexec] at hreply ⊢
  cases held with
  | none =>
      refine absent_undone hfirst h (popMembers_absent h hfirst rest) fun _ => .inl rfl
  | some s =>
      cases hcount : popCount rest with
      | none =>
          subst hfirst
          have hrun : Runs (popMembers env first rest) w
              (errReply "ERR value is out of range, must be positive") w := by
            apply h.getAs.bind
            simp only [hcount]
            exact .pure _ w
          rw [hrun.value] at hreply
          cases hreply
          exact absurd hok (by decide)
      | some count =>
          obtain ⟨popped, hpopped⟩ : ∃ popped, randomKeys env.choices s
              (if s.card < count then s.card else count) = some popped := by
            have hpos := popCount_pos hcount
            exact randomKeys_some env.choices s (by split <;> omega)
          apply present_undone hfirst h (popMembers_sets h hfirst hcount hpopped)
          exact (popped_named_iff hcount hlen hpopped).trans ⟨fun hp _ => hp, fun hp => hp rfl⟩

theorem sAdd_undone {key : Bytes} (hfirst : text first = key) (h : SetAt env w key held) :
    UndoneIff env (undoSetChange env (first :: rest)) (execSAdd env (first :: rest)) w key held
      (PutsBack .sAdd env.choices held rest) := by
  have hP : PutsBack .sAdd env.choices held rest := by
    rintro ⟨⟩
  have hadd := execSAdd_sets h hfirst rest
  cases held with
  | none => exact absent_undone hfirst h hadd hP
  | some s =>
      refine present_undone hfirst h hadd (iff_of_true (fun x hx => ?_) hP)
      change x ∈ (addMembers s (rest.map text)).1 ↔ x ∈ s
      rw [addMembers_fst]
      exact or_iff_right hx

theorem sRem_undone {key : Bytes} (hfirst : text first = key) (h : SetAt env w key held) :
    UndoneIff env (undoSetChange env (first :: rest)) (execSRem env (first :: rest)) w key held
      (PutsBack .sRem env.choices held rest) := by
  have hP : PutsBack .sRem env.choices held rest := by
    rintro ⟨⟩
  cases held with
  | none => exact absent_undone hfirst h (execSRem_absent h hfirst rest) hP
  | some s =>
      obtain ⟨held', hrem, hmembers⟩ := execSRem_sets hfirst h rest
      refine present_undone hfirst h hrem (iff_of_true (fun x hx => ?_) hP)
      rw [hmembers, removeMembers_fst]
      exact and_iff_left hx

theorem execWithLock_arity {args : List Slice} {c : CommandName}
    (hc : cmdTable (toLower (text name)) = some c)
    (hreply : value (execWithLock env (name :: args)) w = some reply) (hok : isErrorReply reply = false) :
    validateArity (command env c).arity (name :: args) = true := by
  by_contra harity
  have hfind : findCommand env (name :: args) = pure (.error (.argNumErr (toLower (text name)))) := by
    rw [findCommand]
    simp only [hc, harity]
    rfl
  rw [execWithLock, hfind, pure_bind] at hreply
  cases hreply
  exact absurd hok (by simp [isErrorReply, Reply.toBytes, bytes])

/-- The lines that `undoSetChange` finds restore the set, but for one that `SPOP` takes other
members from than its count names. -/
theorem set_change_undone_iff {key : Bytes} (hfirst : text first = key)
    (hdata : w.db.data.lookup key = held.map .set) (hfresh : ∀ k, w.db.isExpired env k = false)
    {c : CommandName} (hc : c = .sAdd ∨ c = .sRem ∨ c = .sPop)
    (hname : cmdTable (toLower (text name)) = some c)
    (hreply : value (execWithLock env (name :: first :: rest)) w = some reply)
    (hok : isErrorReply reply = false) :
    ∃ lines, Runs (Transaction.getUndoLogs env (name :: first :: rest)) w lines w ∧ ∃ t,
      Runs (Transaction.execUndo env lines) (final (execWithLock env (name :: first :: rest)) w) ⟨⟩ t ∧
      (SetBack held key t ↔ (c = .sPop → PopsItsCount env.choices (membersOf held) rest)) := by
  have h : SetAt env w key held := ⟨hdata, hfresh key⟩
  have hundo : Transaction.getUndoLogs env (name :: first :: rest) = undoSetChange env (first :: rest) := by
    rw [Transaction.getUndoLogs]
    simp only [hname]
    rcases hc with rfl | rfl | rfl <;> rfl
  have harity := execWithLock_arity hname hreply hok
  rw [hundo]
  rw [execWithLock_line hname harity] at hreply ⊢
  rcases hc with rfl | rfl | rfl
  · exact sAdd_undone hfirst h
  · exact sRem_undone hfirst h
  · exact sPop_undone hfirst h hreply hok

def oneMember : World ℤ where
  db := { data := (∅ : Dict (Entity ℤ)).insert (bytes "k") (.set {bytes "a"}), ttlMap := ∅, versionMap := fun _ => 0 }
  aof := []

theorem oneMember_data : oneMember.db.data.lookup (bytes "k") = some (.set {bytes "a"}) :=
  Finmap.lookup_insert _

theorem set_change_undone_iff_oneMember :
    ∃ lines, Runs (Transaction.getUndoLogs (Env.plain 0) (cmdLine "SREM" [bytes "k", bytes "a"])) oneMember
      lines oneMember ∧ ∃ t, Runs (Transaction.execUndo (Env.plain 0) lines)
        (final (execWithLock (Env.plain 0) (cmdLine "SREM" [bytes "k", bytes "a"])) oneMember) ⟨⟩ t ∧
      (SetBack (some {bytes "a"}) (bytes "k") t ↔
        (CommandName.sRem = .sPop → PopsItsCount (Env.plain 0).choices {bytes "a"} [some (bytes "a")])) := by
  have hline : execWithLock (Env.plain 0) (cmdLine "SREM" [bytes "k", bytes "a"]) =
      execSRem (Env.plain 0) [some (bytes "k"), some (bytes "a")] :=
    execWithLock_line (c := .sRem) (by decide) rfl
  have hreply : value (execWithLock (Env.plain 0) (cmdLine "SREM" [bytes "k", bytes "a"])) oneMember =
      some (.int 1) := by
    rw [hline]
    rfl
  have hlookup : oneMember.db.data.lookup (bytes "k") = (some {bytes "a"} : Option (Finset Bytes)).map .set :=
    oneMember_data
  have hkey : text (some (bytes "k")) = bytes "k" := rfl
  exact set_change_undone_iff hkey hlookup (fun _ => rfl) (.inr (.inl rfl)) (by decide) hreply rfl

/-- The lines for `SPOP` without a count are none, and so the member stays away. -/
theorem sPop_not_undone :
    ∃ lines, Runs (Transaction.getUndoLogs (Env.plain 0) (cmdLine "SPOP" [bytes "k"])) oneMember lines
      oneMember ∧ ∃ t, Runs (Transaction.execUndo (Env.plain 0) lines)
        (final (execWithLock (Env.plain 0) (cmdLine "SPOP" [bytes "k"])) oneMember) ⟨⟩ t ∧
      ¬ SetBack (some {bytes "a"}) (bytes "k") t := by
  have hline : execWithLock (Env.plain 0) (cmdLine "SPOP" [bytes "k"]) =
      popMembers (Env.plain 0) (some (bytes "k")) [] :=
    execWithLock_line (c := .sPop) (by decide) rfl
  have hundo : Transaction.getUndoLogs (Env.plain 0) (cmdLine "SPOP" [bytes "k"]) =
      undoSetChange (Env.plain 0) [some (bytes "k")] := by
    have hname : cmdTable (toLower (text (some (bytes "SPOP")))) = some .sPop := by decide
    rw [cmdLine, List.map_cons, Transaction.getUndoLogs]
    simp only [hname]
    rfl
  have hat : SetAt (Env.plain 0) oneMember (bytes "k") (some {bytes "a"}) := ⟨oneMember_data, rfl⟩
  obtain ⟨popped, hpopped⟩ := @randomKeys_some (Env.plain 0).choices {bytes "a"} 1 (by decide)
  have hcount : popCount [] = some 1 := rfl
  have hpop : Sets (Env.plain 0) (popMembers (Env.plain 0) (some (bytes "k")) []) oneMember (bytes "k")
      (some (removeMembers {bytes "a"} popped).1) := popMembers_sets hat rfl hcount hpopped
  have hundone : UndoneIff (Env.plain 0) (undoSetChange (Env.plain 0) [some (bytes "k")])
      (popMembers (Env.plain 0) (some (bytes "k")) []) oneMember (bytes "k") (some {bytes "a"})
      (PopsItsCount (Env.plain 0).choices {bytes "a"} []) := by
    apply present_undone rfl hat hpop
    exact popped_named_iff hcount (by decide) hpopped
  obtain ⟨lines, hlines, t, ht, hback⟩ := hundone
  refine ⟨lines, hundo ▸ hlines, t, hline ▸ ht, fun hset => ?_⟩
  have hempty := popsItsCount_nil.mp (hback.mp hset)
  exact absurd hempty (by decide)

end

end Traitor.Database
