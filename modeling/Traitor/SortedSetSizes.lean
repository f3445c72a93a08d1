import Mathlib.Data.List.TakeWhile
import Traitor.ListSizes

namespace Traitor.Database

open Lib.Effects Lib.Strconv Protocol

variable {σ : Type} [LinearOrder σ]

namespace ZSet

variable {z : ZSet σ} {member : Bytes} {score : σ} {height : Nat}

theorem insertNode_ne_nil (nodes : List (Node σ)) (member : Bytes) (score : σ) (height : Nat) :
    insertNode nodes member score height ≠ [] := by simp [insertNode]

theorem removeNode_nil {nodes : List (Node σ)} (h : removeNode nodes member score = []) :
    nodes = [] ∨ ∃ height, nodes = [⟨score, member, height⟩] := by
  have happend := List.takeWhile_append_dropWhile (p := precedes member score) (l := nodes)
  rw [removeNode] at h
  cases hdrop : nodes.dropWhile (precedes member score) with
  | nil =>
      rw [hdrop] at h
      exact .inl h
  | cons a after =>
      rw [hdrop] at h happend
      dsimp only at h
      split at h
      · next hsame =>
          obtain ⟨hbefore, rfl⟩ := List.append_eq_nil_iff.mp h
          obtain ⟨score', member', height⟩ := a
          obtain ⟨rfl, rfl⟩ := hsame
          rw [hbefore] at happend
          exact .inr ⟨height, happend.symm⟩
      · exact .inl h

theorem mem_removeNode {nodes : List (Node σ)} {a : Node σ} (ha : a ∈ nodes) (hne : a.member ≠ member) :
    a ∈ removeNode nodes member score := by
  have happend := List.takeWhile_append_dropWhile (p := precedes member score) (l := nodes)
  rw [removeNode]
  cases hdrop : nodes.dropWhile (precedes member score) with
  | nil => exact ha
  | cons b after =>
      rw [hdrop] at happend
      dsimp only
      split
      · next hsame =>
          rw [← happend, List.mem_append, List.mem_cons] at ha
          rw [List.mem_append]
          refine ha.imp_right fun hb => hb.resolve_left ?_
          rintro rfl
          exact hne hsame.2
      · exact ha

/-- A node that is too high is not put back where the only one was taken away. -/
def Unlinks (z : ZSet σ) (member : Bytes) (score : σ) (height : Nat) : Prop :=
  SkipList.maxLevel < height ∧
    match z.dict.lookup member with
    | some old => score ≠ old ∧ ∃ height, z.nodes = [⟨old, member, height⟩]
    | none => z.nodes = []

theorem add_ne_nil (hne : z.nodes ≠ [] ∨ z.dict.lookup member = none)
    (h : ¬ z.Unlinks member score height) : (z.add member score height).1.nodes ≠ [] := by
  rw [Unlinks] at h
  rw [add]
  cases hold : z.dict.lookup member with
  | none =>
      rw [hold] at h
      dsimp only at h ⊢
      split
      · next hhigh => exact fun hnil => h ⟨hhigh, hnil⟩
      · exact insertNode_ne_nil _ _ _ _
  | some old =>
      rw [hold] at h
      have hnodes : z.nodes ≠ [] := hne.resolve_right (by simp [hold])
      dsimp only at h ⊢
      split
      · next hscore =>
          split
          · next hhigh =>
              intro hnil
              exact h ⟨hhigh, hscore, (removeNode_nil hnil).resolve_left hnodes⟩
          · exact insertNode_ne_nil _ _ _ _
      · exact hnodes

def UnlinksAll (c : Choices) (z : ZSet σ) (i : Nat) : List (Bytes × σ) → Prop
  | [] => False
  | (member, score) :: elements =>
      z.Unlinks member score (c.height i) ∨ (z.add member score (c.height i)).2 ≠ none ∧
        UnlinksAll c (z.add member score (c.height i)).1 (i + 1) elements

theorem remove_mem {a : Node σ} (ha : a ∈ z.nodes) (hne : a.member ≠ member) :
    a ∈ (z.remove member).1.nodes := by
  rw [remove]
  cases z.dict.lookup member with
  | none => exact ha
  | some score => exact mem_removeNode ha hne

theorem removeElements_mem {members : List Bytes} {a : Node σ} (ha : a ∈ z.nodes)
    (hne : a.member ∉ members) : a ∈ (removeElements z members).1.nodes := by
  induction members generalizing z with
  | nil => exact ha
  | cons member members ih =>
      rw [List.mem_cons, not_or] at hne
      exact ih (remove_mem ha hne.1) hne.2

def Within (z : ZSet σ) (min max : ScoreBorder σ) : Prop :=
  (∀ a ∈ z.nodes.head?, min.less a.score = true) ∧ ∀ a ∈ z.nodes, max.greater a.score = true

theorem removeByScore_ne_nil {min max : ScoreBorder σ} (h : ¬ z.Within min max) :
    (z.removeByScore min max).1.nodes ≠ [] := by
  intro hnil
  rw [removeByScore, removeRangeByScore, removeMiddle] at hnil
  simp only [lt_irrefl, if_false, List.append_eq_nil_iff] at hnil
  obtain ⟨hbefore, hafter⟩ := hnil
  have happend := List.takeWhile_append_dropWhile (p := fun a : Node σ => !min.less a.score) (l := z.nodes)
  rw [hbefore, List.nil_append] at happend
  rw [happend, List.drop_eq_nil_iff] at hafter
  have hall := (List.takeWhile_prefix _).eq_of_length_le hafter
  rw [List.takeWhile_eq_self_iff] at hall
  refine h ⟨fun a ha => ?_, hall⟩
  obtain ⟨rest, hnodes⟩ := List.head?_eq_some_iff.mp ha
  rw [hnodes, List.takeWhile_cons] at hbefore
  by_contra hless
  simp [hless] at hbefore

omit [LinearOrder σ] in
theorem removeByRank_ne_nil {start stop : Int} (hne : z.nodes ≠ []) (hstart : 0 ≤ start)
    (h : ¬ (start = 0 ∧ z.len ≤ stop)) : (z.removeByRank start stop).1.nodes ≠ [] := by
  intro hnil
  rw [removeByRank, removeRangeByRank, removeMiddle] at hnil
  dsimp only at hnil
  obtain ⟨hbefore, hafter⟩ := List.append_eq_nil_iff.mp hnil
  have hzero : start = 0 := by
    by_contra hpos
    rw [List.take_eq_nil_iff] at hbefore
    exact hne (hbefore.resolve_left (by omega))
  subst hzero
  refine h ⟨rfl, ?_⟩
  simp only [List.drop_eq_nil_iff, List.length_take, List.length_drop] at hafter
  rw [len]
  have hlength := List.length_pos_iff.mpr hne
  omega

theorem popMin_ne_nil [Inhabited σ] {count : Int} (hne : z.nodes ≠ []) (hcount : 0 < count) (hlen : count < z.len) :
    (z.popMin count).1.nodes ≠ [] := by
  obtain ⟨a, rest, hnodes⟩ := List.exists_cons_of_ne_nil hne
  have hrange : hasInRange z.nodes .negativeInfBorder .positiveInfBorder = true := by
    obtain ⟨init, last, hlast⟩ := (List.eq_nil_or_concat' z.nodes).resolve_left hne
    have hhead : z.nodes.head? = some a := by rw [hnodes, List.head?_cons]
    have htail : z.nodes.getLast? = some last := by rw [hlast, List.getLast?_concat]
    simp [hasInRange, hhead, htail, ScoreBorder.negativeInfBorder, ScoreBorder.positiveInfBorder,
      ScoreBorder.less, ScoreBorder.greater]
  have hfirst : fromFirst z.nodes .negativeInfBorder .positiveInfBorder = a :: rest := by
    rw [fromFirst, if_pos hrange, hnodes, List.dropWhile_cons_of_neg
      (by simp [ScoreBorder.less, ScoreBorder.negativeInfBorder])]
    exact if_pos (by simp [ScoreBorder.greater, ScoreBorder.positiveInfBorder])
  have hgreater : z.nodes.takeWhile (fun b => ScoreBorder.positiveInfBorder.greater b.score) = z.nodes := by
    rw [List.takeWhile_eq_self_iff]
    exact fun b _ => rfl
  have hinRange : z.nodes.dropWhile (fun b => !ScoreBorder.less ⟨.finite, a.score, false⟩ b.score) =
      z.nodes := by
    rw [hnodes, List.dropWhile_cons_of_neg (by simp [ScoreBorder.less])]
  intro hnil
  simp only [popMin, hfirst, removeRangeByScore, removeMiddle, hinRange, hgreater, if_pos hcount,
    List.append_eq_nil_iff, List.drop_eq_nil_iff, List.length_take] at hnil
  rw [len] at hlen
  omega

end ZSet

variable {env : Env σ} {w : World σ} {key : Bytes} (args : List Slice)

section

omit [LinearOrder σ]

theorem DB.Full.live_sortedSet (h : w.db.Full) {e : Entity σ} {z : ZSet σ}
    (hlive : w.db.live env key = some e) (hz : e.asSortedSet = some z) : z.nodes ≠ [] := by
  have hne := h.live hlive
  rw [asSortedSet_eq hz] at hne
  exact hne

theorem sortedSet_nonempty {z : ZSet σ} (h : z.nodes ≠ []) : (Entity.zset z : Entity σ).Nonempty := h

theorem parseElements_ne_nil {rest : List Slice} {elements : List (Bytes × σ)} (hrest : 2 ≤ rest.length)
    (h : parseElements env rest = some elements) : elements ≠ [] := by
  rcases rest with _ | ⟨score, _ | ⟨member, rest⟩⟩
  · simp at hrest
  · simp at hrest
  · rw [parseElements] at h
    obtain ⟨s, -, h⟩ := Option.bind_eq_some_iff.mp h
    obtain ⟨l, -, h⟩ := Option.bind_eq_some_iff.mp h
    cases h
    exact List.cons_ne_nil _ _

theorem sliceRange_le {start stop size first last : Int} (hsize : 0 ≤ size)
    (h : sliceRange start stop size = some (first, last)) : 0 ≤ first ∧ last ≤ size := by
  obtain ⟨start', hstart, heq⟩ := Option.map_eq_some_iff.mp h
  obtain ⟨rfl, rfl⟩ := Prod.mk.inj heq
  have hle : 0 ≤ start' ∧ start' ≤ size := by
    repeat' split at hstart
    all_goals first | (cases hstart; omega) | cases hstart
  refine ⟨hle.1, ?_⟩
  repeat' split
  all_goals omega

theorem FullAfter.put_logRemoved {z : ZSet σ} {name : String} {removed : List (Node σ)} {reply : Reply}
    (h : w.db.FullBut key) (hne : z.nodes ≠ []) : FullAfter (do
      setSortedSet key z
      logRemoved name args removed
      return reply) w := by
  refine .put h (sortedSet_nonempty hne) ?_
  rw [logRemoved]
  split
  · exact .pure _
  · exact (log_fills _).bind fun _ => .pure _

theorem FullAfter.borders [Inhabited σ] (first second : Slice) {f : Except Reply (ScoreBorder σ × ScoreBorder σ) →
    Exec σ Reply} (h : w.db.Full) (herror : ∀ e, FullAfter (f (.error e)) w)
    (hok : ∀ a b, parseScoreBorder env (text first) = some (some a) →
      parseScoreBorder env (text second) = some (some b) → FullAfter (f (.ok (a, b))) w) :
    FullAfter (Database.borders env first second >>= f) w := by
  rw [Database.borders]
  cases hfirst : parseScoreBorder env (text first) with
  | none => exact h
  | some a =>
      cases a with
      | none => exact herror _
      | some a =>
          cases hsecond : parseScoreBorder env (text second) with
          | none => exact h
          | some b =>
              cases b with
              | none => exact herror _
              | some b => exact hok a b hfirst hsecond

end

theorem addElement_full {z : ZSet σ} {member : Bytes} {score : σ} {height : Nat}
    {f : ZSet σ × Bool → Exec σ Reply} (h : w.db.FullBut key)
    (hne : z.nodes ≠ [] ∨ z.dict.lookup member = none) (hlink : ¬ z.Unlinks member score height)
    (hf : ∀ isNew, (z.add member score height).2 = some isNew → FullAfter (f ((z.add member score height).1, isNew))
      { w with db := w.db.put key (.zset (z.add member score height).1) }) :
    FullAfter (addElement key z member score height >>= f) w := by
  have hput := h.full_put (sortedSet_nonempty (ZSet.add_ne_nil hne hlink))
  rw [addElement]
  rcases hadd : z.add member score height with ⟨z', isNew⟩
  rw [hadd] at hput hf
  simp only [FullAfter, setSortedSet, putEntity, wp_bind, wp_modifyDB]
  cases isNew with
  | none => exact hput
  | some isNew => exact hf isNew rfl

theorem addElements_full {z : ZSet σ} {i : Nat} {elements : List (Bytes × σ)} {f : Int → Exec σ Reply}
    (h : w.db.FullBut key) (hz : z.nodes ≠ [] ∨ z.dict = ∅) (hne : elements ≠ [] ∨ w.db.Full)
    (hlinks : ¬ z.UnlinksAll env.choices i elements) (hf : ∀ n, Moves Fills (f n)) :
    FullAfter (addElements env key z i elements >>= f) w := by
  induction elements generalizing z i w f with
  | nil => exact FullAfter.of_fills (hne.resolve_left (not_not.mpr rfl)) (hf 0)
  | cons element elements ih =>
      obtain ⟨member, score⟩ := element
      rw [ZSet.UnlinksAll, not_or, not_and] at hlinks
      have hlookup : z.nodes ≠ [] ∨ z.dict.lookup member = none :=
        hz.imp_right fun hdict => by rw [hdict, Finmap.lookup_empty]
      have hne' := ZSet.add_ne_nil hlookup hlinks.1
      rw [addElements, bind_assoc]
      apply addElement_full h hlookup hlinks.1
      intro isNew hadd
      have hput := h.full_put (sortedSet_nonempty hne')
      rw [bind_assoc]
      exact ih (hput.but key) (.inl hne') (.inr hput) (hlinks.2 (by simp [hadd])) fun n => hf _

theorem execZAdd_full (h : w.db.Full) (hargs : 3 ≤ args.length)
    (hlinks : ∀ key rest elements, args = key :: rest → rest.length % 2 = 0 →
      parseElements env rest = some elements →
      (w.db.live env (text key) = none → ¬ ZSet.make.UnlinksAll env.choices 0 elements) ∧
      ∀ z, w.db.live env (text key) = some (.zset z) → ¬ z.UnlinksAll env.choices 0 elements) :
    FullAfter (execZAdd env args) w := by
  unfold execZAdd
  split
  · next key rest =>
      rw [List.length_cons] at hargs
      split
      · exact h
      · next hodd =>
          split
          · exact h
          · next elements helements =>
              have hne := parseElements_ne_nil (by omega) helements
              obtain ⟨hnone, hsome⟩ := hlinks key rest elements rfl (by simp at hodd; omega) helements
              refine .getOrInit h (fun _ _ ht => ht) (fun hlive t ht _ => ?_) fun z e hlive hz => ?_
              · exact addElements_full ht (.inr rfl) (.inl hne) (hnone hlive) fun n => .pure _
              · have hnodes := h.live_sortedSet hlive hz
                obtain rfl := asSortedSet_eq hz
                exact addElements_full ((h.evict env _).but _) (.inl hnodes) (.inl hne) (hsome z hlive)
                  fun n => .pure _
  · exact h

theorem execZIncrBy_full (h : w.db.Full)
    (hlinks : ∀ key rawDelta field rest delta, args = key :: rawDelta :: field :: rest →
      env.lib.parseFloat (text rawDelta) = some delta → w.db.live env (text key) ≠ none ∧
      ∀ z old, w.db.live env (text key) = some (.zset z) → z.dict.lookup (text field) = some old →
        ¬ z.Unlinks (text field) (env.lib.addFloat old delta) (env.choices.height 0)) :
    FullAfter (execZIncrBy env args) w := by
  unfold execZIncrBy
  split
  · next key rawDelta field rest =>
      split
      · exact h
      · next delta hdelta =>
          obtain ⟨hlive, hlinks⟩ := hlinks key rawDelta field rest delta rfl hdelta
          refine .getOrInit h (fun _ _ ht => ht) (fun hnone => absurd hnone hlive) fun z e hz hview => ?_
          have hnodes := h.live_sortedSet hz hview
          obtain rfl := asSortedSet_eq hview
          dsimp only
          split
          · exact h.evict env _
          · next old hold =>
              have hlink := hlinks z old hz hold
              apply addElement_full ((h.evict env _).but _) (.inl hnodes) hlink
              intro isNew _
              exact (((h.evict env _).but _).full_put (sortedSet_nonempty (ZSet.add_ne_nil (.inl hnodes) hlink)))
  · exact h

theorem execZRem_full (h : w.db.Full)
    (hrem : ∀ key fields z, args = key :: fields → w.db.live env (text key) = some (.zset z) →
      ∃ a ∈ z.nodes, a.member ∉ fields.map text) : FullAfter (execZRem env args) w := by
  unfold execZRem
  split
  · next key fields =>
      refine .getAs h (fun _ _ ht => ht) (fun _ ht => ht) fun z e hlive hz => ?_
      obtain rfl := asSortedSet_eq hz
      obtain ⟨a, ha, hne⟩ := hrem key fields z rfl hlive
      refine .put ((h.evict env _).but _)
        (sortedSet_nonempty (List.ne_nil_of_mem (ZSet.removeElements_mem ha hne))) ?_
      split
      · exact log_return_fills _ _
      · exact .pure _
  · exact h

omit [LinearOrder σ] in
theorem execZRemRangeByRank_full (h : w.db.Full)
    (hrem : ∀ key rawStart rawStop rest start stop z, args = key :: rawStart :: rawStop :: rest →
      parseInt 64 (text rawStart) = some start → parseInt 64 (text rawStop) = some stop →
      w.db.live env (text key) = some (.zset z) → sliceRange start stop z.len ≠ some (0, z.len)) :
    FullAfter (execZRemRangeByRank env args) w := by
  unfold execZRemRangeByRank
  split
  · next key rawStart rawStop rest =>
      split
      · exact h
      · next start hstart =>
          split
          · exact h
          · next stop hstop =>
              refine .getAs h (fun _ _ ht => ht) (fun _ ht => ht) fun z e hlive hz => ?_
              have hnodes := h.live_sortedSet hlive hz
              obtain rfl := asSortedSet_eq hz
              have hslice := hrem key rawStart rawStop rest start stop z rfl hstart hstop hlive
              dsimp only
              split
              · exact h.evict env _
              · next first last hrange =>
                  obtain ⟨hfirst, hlast⟩ := sliceRange_le (Int.natCast_nonneg _) hrange
                  refine .put_logRemoved _ ((h.evict env _).but _) (ZSet.removeByRank_ne_nil hnodes hfirst ?_)
                  rintro ⟨rfl, hle⟩
                  rw [le_antisymm hlast hle] at hrange
                  exact hslice hrange
  · exact h

variable [Inhabited σ]

theorem execZPopMin_full (h : w.db.Full)
    (hpop : ∀ key rest count z, args = key :: rest → popMinCount rest = some count →
      w.db.live env (text key) = some (.zset z) → 0 < count ∧ count < z.len) :
    FullAfter (execZPopMin env args) w := by
  unfold execZPopMin
  split
  · next key rest =>
      split
      · exact h
      · next count hcount =>
          refine .getAs h (fun _ _ ht => ht) (fun _ ht => ht) fun z e hlive hz => ?_
          have hnodes := h.live_sortedSet hlive hz
          obtain rfl := asSortedSet_eq hz
          obtain ⟨hpos, hlen⟩ := hpop key rest count z rfl hcount hlive
          exact .put_logRemoved _ ((h.evict env _).but _) (ZSet.popMin_ne_nil hnodes hpos hlen)
  · exact h

theorem execZRemRangeByScore_full (h : w.db.Full)
    (hrem : ∀ key rawMin rawMax min max z, args = [key, rawMin, rawMax] →
      parseScoreBorder env (text rawMin) = some (some min) →
      parseScoreBorder env (text rawMax) = some (some max) →
      w.db.live env (text key) = some (.zset z) → ¬ z.Within min max) :
    FullAfter (execZRemRangeByScore env args) w := by
  unfold execZRemRangeByScore
  split
  · next key rawMin rawMax =>
      refine .borders _ _ h (fun _ => h) fun min max hmin hmax => ?_
      refine .getAs h (fun _ _ ht => ht) (fun _ ht => ht) fun z e hlive hz => ?_
      obtain rfl := asSortedSet_eq hz
      exact .put_logRemoved _ ((h.evict env _).but _)
        (ZSet.removeByScore_ne_nil (hrem key rawMin rawMax min max z rfl hmin hmax hlive))
  · exact h

end Traitor.Database
