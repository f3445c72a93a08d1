import Traitor.Cluster

namespace Traitor.NodeList

open MultiNode

/-- What the server answers to a SCAN with a cursor and a pattern: a page of keys and the
cursor of the next one. None is an error. -/
abbrev Scan := UInt64 → Bytes → Option (List Bytes × UInt64)

/-- The variables of the loop, and the cursors that have been asked for. -/
structure Loop where
  cursor : UInt64
  list : List Bytes
  calls : List UInt64

/-- The list is cleared after an error. The cursor of an answer is a new variable of the
body, and the one of the loop is never written. -/
def syncLoop (scan : Scan) (matchStr : Bytes) : Nat → Loop → Option (Loop × Option (List Bytes))
  | 0, _ => none
  | fuel + 1, s =>
      let asked := s.calls ++ [s.cursor]
      match scan s.cursor matchStr with
      | none => some ({ s with calls := asked }, none)
      | some (keys, cursor) =>
          let list := s.list ++ keys
          if cursor = 0 then some ({ s with list := list, calls := asked }, some list)
          else syncLoop scan matchStr fuel { s with list := list, calls := asked }

def nodeId : Bytes := bytes "traitor_defaultNode_"

def matchStr (cluster : Bytes) : Bytes := nodeId ++ cluster ++ [42]

def syncNodeList (scan : Scan) (cluster : Bytes) (fuel : Nat) : Option (Loop × Option (List Bytes)) :=
  syncLoop scan (matchStr cluster) fuel ⟨0, [], []⟩

def syncedRing (scan : Scan) (cluster : Bytes) (fuel : Nat) : Option ConsistentHash.Map :=
  (syncNodeList scan cluster fuel).map fun s => ring (s.2.getD [])

structure Page where
  cursor : UInt64
  keys : List Bytes

/-- The pages that come when every call has the cursor of the answer before it, up to the
cursor zero. -/
inductive Iterates (scan : Scan) (pattern : Bytes) : UInt64 → List Page → Prop
  | last {cursor : UInt64} {keys : List Bytes} (h : scan cursor pattern = some (keys, 0)) :
      Iterates scan pattern cursor [⟨cursor, keys⟩]
  | next {cursor cursor' : UInt64} {keys : List Bytes} {pages : List Page}
      (h : scan cursor pattern = some (keys, cursor')) (hmore : cursor' ≠ 0)
      (hrest : Iterates scan pattern cursor' pages) :
      Iterates scan pattern cursor (⟨cursor, keys⟩ :: pages)

variable {scan : Scan} {pattern cluster : Bytes} {pages : List Page}

theorem Iterates.ne_nil {cursor : UInt64} (h : Iterates scan pattern cursor pages) : pages ≠ [] := by
  cases h with
  | last => exact List.cons_ne_nil _ _
  | next => exact List.cons_ne_nil _ _

/-- A loop whose first answer is not the last one asks for the same page forever. -/
theorem syncLoop_stuck {s : Loop} {keys : List Bytes} {cursor : UInt64}
    (h : scan s.cursor pattern = some (keys, cursor)) (hmore : cursor ≠ 0) (fuel : Nat) :
    syncLoop scan pattern fuel s = none := by
  induction fuel generalizing s with
  | zero => rfl
  | succ fuel ih =>
      rw [syncLoop, h]
      dsimp only
      rw [if_neg hmore]
      exact ih h

/-- The loop ends with the one page there is, or never. -/
theorem syncNodeList_spec (h : Iterates scan (matchStr cluster) 0 pages) (fuel : Nat) :
    (∃ keys, pages = [⟨0, keys⟩] ∧
      syncNodeList scan cluster (fuel + 1) = some (⟨0, keys, [0]⟩, some keys)) ∨
    (pages.length ≠ 1 ∧ syncNodeList scan cluster (fuel + 1) = none) := by
  cases h with
  | @last _ keys h =>
      refine .inl ⟨keys, rfl, ?_⟩
      rw [syncNodeList, syncLoop, h]
      rfl
  | next h hmore hrest =>
      refine .inr ⟨fun hone => ?_, syncLoop_stuck h hmore _⟩
      exact hrest.ne_nil (List.eq_nil_of_length_eq_zero (Nat.succ.inj hone))

/-- The loop issues finitely many calls, and the cursor of every page is one of them. -/
def VisitsAll (scan : Scan) (cluster : Bytes) (pages : List Page) : Prop :=
  ∃ fuel s list, syncNodeList scan cluster fuel = some (s, list) ∧
    ∀ page ∈ pages, page.cursor ∈ s.calls

/-- Every page is visited if and only if there is just one. -/
theorem visitsAll_iff (h : Iterates scan (matchStr cluster) 0 pages) :
    VisitsAll scan cluster pages ↔ pages.length = 1 := by
  constructor
  · rintro ⟨fuel, s, list, hsync, -⟩
    cases fuel with
    | zero => cases hsync
    | succ fuel =>
        rcases syncNodeList_spec h fuel with ⟨keys, rfl, -⟩ | ⟨-, hnone⟩
        · rfl
        · rw [hnone] at hsync
          cases hsync
  · intro hone
    rcases syncNodeList_spec h 0 with ⟨keys, rfl, hsync⟩ | ⟨hmany, -⟩
    · refine ⟨1, _, _, hsync, fun page hpage => ?_⟩
      rw [List.mem_singleton.mp hpage]
      exact List.mem_singleton_self _
    · exact absurd hone hmany

theorem visitsAll_iff_single :
    VisitsAll (fun _ _ => some ([bytes "k"], 0)) [] [⟨0, [bytes "k"]⟩] ↔
      [(⟨0, [bytes "k"]⟩ : Page)].length = 1 :=
  visitsAll_iff (.last rfl)

def twoPages : Scan := fun cursor _ => if cursor = 0 then some ([], 1) else some ([], 0)

theorem not_visitsAll_twoPages :
    ¬ ∀ (scan : Scan) (cluster : Bytes) (pages : List Page),
      Iterates scan (matchStr cluster) 0 pages → VisitsAll scan cluster pages := by
  intro h
  have hfirst : twoPages 0 (matchStr []) = some ([], 1) := rfl
  obtain ⟨fuel, s, list, hsync, -⟩ := h twoPages [] [⟨0, []⟩, ⟨1, []⟩]
    (.next hfirst (by decide) (.last rfl))
  have hstuck : syncNodeList twoPages [] fuel = none := syncLoop_stuck hfirst (by decide) fuel
  rw [hstuck] at hsync
  cases hsync

/-- The key of a live node. The text of a UUID has 36 characters. -/
structure Live where
  cluster : Bytes
  uuid : Bytes
  uuid_length : uuid.length = 36
deriving DecidableEq

def Live.key (node : Live) : Bytes := nodeId ++ node.cluster ++ node.uuid

theorem Live.cluster_eq_of_key_eq {node node' : Live} (h : node.key = node'.key) :
    node.cluster = node'.cluster := by
  rw [key, key, List.append_assoc, List.append_assoc] at h
  refine (List.append_inj' (List.append_cancel_left h) ?_).1
  rw [node.uuid_length, node'.uuid_length]

/-- A name in which no character has a meaning of its own in a pattern. -/
def Plain (name : Bytes) : Prop := ∀ c ∈ name, c ≠ 42 ∧ c ≠ 63 ∧ c ≠ 91 ∧ c ≠ 92

instance (name : Bytes) : Decidable (Plain name) := List.decidableBAll _ name

/-- How the server matches a key against a pattern. A plain text and an asterisk match the
keys that begin with the text. -/
structure Glob where
  isMatch : Bytes → Bytes → Bool
  isMatch_star : ∀ text key, Plain text → (isMatch (text ++ [42]) key = true ↔ text <+: key)

/-- Only patterns that end with an asterisk, and no other special character in them. -/
def prefixGlob : Glob where
  isMatch pattern key := pattern.dropLast <+: key
  isMatch_star text key _ := by simp

/-- Whether the pattern of a cluster covers a node. For a plain name it covers the nodes
whose cluster and UUID together begin with the name. -/
def Covers (glob : Glob) (own : Bytes) (node : Live) : Prop :=
  if Plain own then own <+: node.cluster ++ node.uuid
  else glob.isMatch (matchStr own) node.key = true

theorem covers_iff (glob : Glob) (own : Bytes) (node : Live) :
    Covers glob own node ↔ glob.isMatch (matchStr own) node.key = true := by
  rw [Covers]
  split
  · next hplain =>
      have hnode : Plain nodeId := by decide
      have htext : Plain (nodeId ++ own) := fun c hc =>
        (List.mem_append.mp hc).elim (hnode c) (hplain c)
      rw [matchStr, glob.isMatch_star _ _ htext, Live.key, List.append_assoc,
        List.prefix_append_right_inj]
  · rfl

def Lists (glob : Glob) (own : Bytes) (live : List Live) (pages : List Page) : Prop :=
  ∀ key, key ∈ pages.flatMap Page.keys ↔
    ∃ node ∈ live, node.key = key ∧ glob.isMatch (matchStr own) key = true

/-- The ring is built from the keys of the live nodes of the cluster and from no others. -/
def FindsOwn (scan : Scan) (own : Bytes) (live : List Live) : Prop :=
  ∃ fuel s list, syncNodeList scan own fuel = some (s, some list) ∧
    ∀ key, key ∈ list ↔ ∃ node ∈ live, node.cluster = own ∧ node.key = key

/-- The list is right if and only if the keys come in one page and the pattern covers the
nodes of the cluster and no others. -/
theorem findsOwn_iff (glob : Glob) (own : Bytes) (live : List Live)
    (h : Iterates scan (matchStr own) 0 pages) (hlists : Lists glob own live pages) :
    FindsOwn scan own live ↔
      pages.length = 1 ∧ ∀ node ∈ live, Covers glob own node ↔ node.cluster = own := by
  have hfound (keys : List Bytes) (hpages : pages = [⟨0, keys⟩]) (key : Bytes) :
      key ∈ keys ↔ ∃ node ∈ live, node.key = key ∧ Covers glob own node := by
    have hkey := hlists key
    rw [hpages, List.flatMap_singleton] at hkey
    refine hkey.trans (exists_congr fun node => and_congr_right fun _ => and_congr_right fun hk => ?_)
    rw [covers_iff, hk]
  constructor
  · rintro ⟨fuel, s, list, hsync, hlist⟩
    cases fuel with
    | zero => cases hsync
    | succ fuel =>
        rcases syncNodeList_spec h fuel with ⟨keys, hpages, hone⟩ | ⟨-, hnone⟩
        · rw [hone] at hsync
          obtain rfl : keys = list := by
            simpa using congrArg (fun p => p.map Prod.snd) hsync
          refine ⟨by rw [hpages]; rfl, fun node hnode => ⟨fun hcovers => ?_, fun hown => ?_⟩⟩
          · have hmem := (hfound keys hpages node.key).mpr ⟨node, hnode, rfl, hcovers⟩
            obtain ⟨node', -, hown, hkey⟩ := (hlist node.key).mp hmem
            rw [← hown]
            exact Live.cluster_eq_of_key_eq hkey.symm
          · have hmem := (hlist node.key).mpr ⟨node, hnode, hown, rfl⟩
            obtain ⟨node', -, hkey, hcovers⟩ := (hfound keys hpages node.key).mp hmem
            rw [covers_iff] at hcovers ⊢
            exact hkey ▸ hcovers
        · rw [hnone] at hsync
          cases hsync
  · rintro ⟨hone, hcovers⟩
    rcases syncNodeList_spec h 0 with ⟨keys, hpages, hsync⟩ | ⟨hmany, -⟩
    · refine ⟨1, _, keys, hsync, fun key => (hfound keys hpages key).trans ?_⟩
      refine exists_congr fun node => and_congr_right fun hnode => ?_
      rw [hcovers node hnode, and_comm]
    · exact absurd hone hmany

/-- With the right list every job belongs to a live node of the cluster. -/
theorem FindsOwn.owner {own : Bytes} {live : List Live} (h : FindsOwn scan own live)
    (hlive : ∃ node ∈ live, node.cluster = own) (jobId : Bytes) :
    ∃ fuel m node, syncedRing scan own fuel = some m ∧ node ∈ live ∧ node.cluster = own ∧
      m.get jobId = node.key := by
  obtain ⟨fuel, s, list, hsync, hlist⟩ := h
  obtain ⟨node, hnode, hown⟩ := hlive
  have hne : list ≠ [] := List.ne_nil_of_mem ((hlist node.key).mpr ⟨node, hnode, hown, rfl⟩)
  have howner := ConsistentHash.get_mem (show 0 < replicaCount by decide) none hne jobId
  obtain ⟨owner, hmem, hcluster, hkey⟩ := (hlist _).mp howner
  exact ⟨fuel, ring list, owner, by rw [syncedRing, hsync]; rfl, hmem, hcluster, hkey.symm⟩

def exampleUuid : Bytes := bytes "ff7a0971-5cb3-4858-9b82-903f214f85ff"

def exampleNode (cluster : Bytes) : Live := ⟨cluster, exampleUuid, by decide⟩

/-- A node of another cluster is on the same redis. -/
theorem findsOwn_iff_other :
    FindsOwn (fun _ _ => some ([(exampleNode (bytes "a")).key], 0)) (bytes "a")
        [exampleNode (bytes "a"), exampleNode (bytes "b")] ↔
      [(⟨0, [(exampleNode (bytes "a")).key]⟩ : Page)].length = 1 ∧
        ∀ node ∈ [exampleNode (bytes "a"), exampleNode (bytes "b")], Covers prefixGlob (bytes "a") node ↔
          node.cluster = bytes "a" := by
  have hown : prefixGlob.isMatch (matchStr (bytes "a")) (exampleNode (bytes "a")).key = true := by decide
  have hother : prefixGlob.isMatch (matchStr (bytes "a")) (exampleNode (bytes "b")).key = false := by decide
  refine findsOwn_iff prefixGlob (bytes "a") [exampleNode (bytes "a"), exampleNode (bytes "b")] (.last rfl)
    fun key => ?_
  simp only [List.flatMap_singleton, List.mem_cons, List.not_mem_nil, or_false, exists_eq_or_imp,
    exists_eq_left]
  constructor
  · rintro rfl
    exact .inl ⟨rfl, hown⟩
  · rintro (⟨rfl, -⟩ | ⟨rfl, hmatch⟩)
    · rfl
    · rw [hother] at hmatch
      cases hmatch

/-- The nodes without a cluster name take every node for one of theirs. -/
theorem not_findsOwn_default :
    ¬ ∀ (glob : Glob) (own : Bytes) (live : List Live) (scan : Scan) (pages : List Page),
      Iterates scan (matchStr own) 0 pages → Lists glob own live pages → FindsOwn scan own live := by
  intro h
  have hlists : Lists prefixGlob [] [exampleNode (bytes "b")] [⟨0, [(exampleNode (bytes "b")).key]⟩] := by
    intro key
    simp only [List.flatMap_singleton, List.mem_singleton, exists_eq_left]
    constructor
    · rintro rfl
      exact ⟨rfl, by decide⟩
    · rintro ⟨rfl, -⟩
      rfl
  have hpages : Iterates (fun _ _ => some ([(exampleNode (bytes "b")).key], 0)) (matchStr []) 0
      [⟨0, [(exampleNode (bytes "b")).key]⟩] := .last rfl
  obtain ⟨fuel, s, list, hsync, hlist⟩ := h prefixGlob [] [exampleNode (bytes "b")] _ _ hpages hlists
  cases fuel with
  | zero => cases hsync
  | succ fuel =>
      rcases syncNodeList_spec hpages fuel with ⟨keys, hkeys, hone⟩ | ⟨hmany, -⟩
      · rw [hone] at hsync
        obtain rfl : keys = list := by simpa using congrArg (fun p => p.map Prod.snd) hsync
        obtain rfl : [(exampleNode (bytes "b")).key] = keys := by simpa using hkeys
        obtain ⟨node, hnode, hown, -⟩ := (hlist _).mp (List.mem_singleton_self _)
        rw [List.mem_singleton.mp hnode] at hown
        exact absurd hown (by decide)
      · exact hmany rfl

end Traitor.NodeList
