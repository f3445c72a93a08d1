import Traitor.Sequences

namespace Traitor.Sequences

open Database Lib.Effects Lib.FiniteMaps Lib.Strconv Protocol

variable {ε : Type} {now : Int} {w : World ε} {key : Bytes}

def Live (now : Int) (w : World ε) : Prop := ∀ key, w.isExpired now key = false

def Full (d : Dict (Entity ε)) : Prop := ∀ key l, d.lookup key = some (.list l) → l ≠ []

def IsList (d : Dict (Entity ε)) (key : Bytes) : Prop := ∀ e, d.lookup key ≠ some (.other e)

def seqOf (d : Dict (Entity ε)) (key : Bytes) : List Slice :=
  match d.lookup key with
  | some (.list l) => l
  | _ => []

def store (d : Dict (Entity ε)) (key : Bytes) (l : List Slice) : Dict (Entity ε) :=
  if l = [] then d.erase key else d.insert key (.list l)

section

variable {d : Dict (Entity ε)} {l l' : List Slice}

theorem lookup_store (d : Dict (Entity ε)) (key : Bytes) (l : List Slice) (k : Bytes) :
    (store d key l).lookup k =
      if k = key then (if l = [] then none else some (.list l)) else d.lookup k := by
  rw [store]
  by_cases hl : l = []
  · rw [if_pos hl, if_pos hl, lookup_erase_ite]
  · rw [if_neg hl, if_neg hl, lookup_insert_ite]

theorem seqOf_store (d : Dict (Entity ε)) (key : Bytes) (l : List Slice) (k : Bytes) :
    seqOf (store d key l) k = if k = key then l else seqOf d k := by
  rw [seqOf, lookup_store]
  by_cases hk : k = key
  · rw [if_pos hk, if_pos hk]
    by_cases hl : l = []
    · rw [if_pos hl, hl]
    · rw [if_neg hl]
  · rw [if_neg hk, if_neg hk, seqOf]

theorem isList_store (h : IsList d key) (k : Bytes) (l : List Slice) : IsList (store d k l) key := by
  intro e he
  rw [lookup_store] at he
  split at he
  · split at he <;> simp at he
  · exact h e he

theorem full_store (h : Full d) (key : Bytes) (l : List Slice) : Full (store d key l) := by
  intro k l' hk
  rw [lookup_store] at hk
  split at hk
  · split at hk
    · cases hk
    · cases hk
      assumption
  · exact h k l' hk

theorem store_store (d : Dict (Entity ε)) (key : Bytes) (l l' : List Slice) :
    store (store d key l) key l' = store d key l' := by
  apply Finmap.ext_lookup
  intro k
  simp only [lookup_store]
  split <;> rfl

theorem store_comm (d : Dict (Entity ε)) {key key' : Bytes} (h : key ≠ key') (l l' : List Slice) :
    store (store d key l) key' l' = store (store d key' l') key l := by
  apply Finmap.ext_lookup
  intro k
  simp only [lookup_store]
  by_cases hk : k = key
  · rw [if_pos hk, if_neg (by rw [hk]; exact h), if_pos hk]
  · rw [if_neg hk, if_neg hk]

/-- To store what is there changes nothing. -/
theorem store_seqOf (h : Full d) (hkey : IsList d key) : store d key (seqOf d key) = d := by
  apply Finmap.ext_lookup
  intro k
  rw [lookup_store]
  split
  · next hk =>
      subst hk
      rw [seqOf]
      cases hd : d.lookup k with
      | none => rfl
      | some e =>
          cases e with
          | list l => exact if_neg (h k l hd)
          | other e => exact absurd hd (hkey e)
  · rfl

theorem store_insert (d : Dict (Entity ε)) (key : Bytes) (e : Entity ε) (l : List Slice) :
    store (d.insert key e) key l = store d key l := by
  apply Finmap.ext_lookup
  intro k
  simp only [lookup_store]
  split
  · rfl
  · next hk => exact Finmap.lookup_insert_of_ne _ hk

theorem store_of_ne (hl : l ≠ []) : store d key l = d.insert key (.list l) := if_neg hl

end

section

theorem Live.of_ttlMap {t : World ε} (h : Live now w) (ht : t.ttlMap = w.ttlMap) : Live now t := by
  intro key
  rw [World.isExpired, ht]
  exact h key

theorem Live.remove (h : Live now w) (key : Bytes) : Live now (w.remove key) := by
  intro k
  rw [World.isExpired, World.remove]
  by_cases hk : k = key
  · rw [hk, Finmap.lookup_erase]
  · rw [Finmap.lookup_erase_ne hk]
    exact h k

def viewOf : Option (Entity ε) → Except Reply (Option (List Slice))
  | none => .ok none
  | some (.other _) => .error .wrongTypeErr
  | some (.list l) => .ok (some l)

theorem getAsList_runs (h : Live now w) (key : Bytes) :
    Runs (getAsList now key) w (viewOf (w.data.lookup key)) w := by
  have hentity : Runs (getEntity now key) w (w.data.lookup key) w := by
    rw [getEntity]
    refine Runs.bind (a := w) (t := w) rfl ?_
    cases hd : w.data.lookup key with
    | none => exact .pure none w
    | some entity =>
        refine Runs.bind (a := false) (t := w) ?_ (.pure (some entity) w)
        rw [isExpired]
        refine Runs.bind (a := w) (t := w) rfl ?_
        rw [h key]
        exact .pure false w
  rw [getAsList]
  apply hentity.bind
  cases w.data.lookup key with
  | none => exact .pure _ w
  | some entity =>
      cases entity with
      | list l => exact .pure _ w
      | other e => exact .pure _ w

theorem putList_runs (key : Bytes) (l : List Slice) (w : World ε) :
    Runs (putList key l) w ⟨⟩ (w.put key l) := .of_modify _ w

theorem addAof_runs (line : CmdLine) (w : World ε) :
    Runs (addAof line) w ⟨⟩ { w with aof := w.aof ++ [line] } := .of_modify _ w

/-- The program runs to its end and leaves the data, and no key is expired then. -/
def Does {α : Type} (now : Int) (m : Exec ε α) (w : World ε) (a : α) (d : Dict (Entity ε)) : Prop :=
  ∃ t, Runs m w a t ∧ t.data = d ∧ Live now t

variable {α β : Type} {m : Exec ε α} {f : α → Exec ε β} {a : α} {b : β} {d d' : Dict (Entity ε)}

theorem Does.pure (h : Live now w) (a : α) : Does now (Pure.pure a) w a w.data :=
  ⟨w, .pure a w, rfl, h⟩

theorem Does.bind (hm : Does now m w a d)
    (hf : ∀ t : World ε, t.data = d → Live now t → Does now (f a) t b d') :
    Does now (m >>= f) w b d' := by
  obtain ⟨t, hrun, hdata, hlive⟩ := hm
  obtain ⟨u, hrun', hdata', hlive'⟩ := hf t hdata hlive
  exact ⟨u, hrun.bind hrun', hdata', hlive'⟩

def Leaves (now : Int) (m : Exec ε α) (w : World ε) (d : Dict (Entity ε)) : Prop := ∃ a, Does now m w a d

theorem Leaves.pure (h : Live now w) (a : α) : Leaves now (Pure.pure a) w w.data := ⟨a, .pure h a⟩

theorem Does.seq (hm : Does now m w a d)
    (hf : ∀ t : World ε, t.data = d → Live now t → Leaves now (f a) t d') :
    Leaves now (m >>= f) w d' := by
  obtain ⟨t, hrun, hdata, hlive⟩ := hm
  obtain ⟨b, u, hrun', hdata', hlive'⟩ := hf t hdata hlive
  exact ⟨b, u, hrun.bind hrun', hdata', hlive'⟩

theorem addAof_does (h : Live now w) (line : CmdLine) : Does now (addAof line) w ⟨⟩ w.data :=
  ⟨_, addAof_runs line w, rfl, h.of_ttlMap rfl⟩

theorem putList_does (h : Live now w) (key : Bytes) (l : List Slice) :
    Does now (putList key l) w ⟨⟩ (w.data.insert key (.list l)) :=
  ⟨_, putList_runs key l w, rfl, h.of_ttlMap rfl⟩

theorem getAsList_does (h : Live now w) (key : Bytes) :
    Does now (getAsList now key) w (viewOf (w.data.lookup key)) w.data :=
  ⟨w, getAsList_runs h key, rfl, h⟩

theorem removeEmpty_does (h : Live now w) (key : Bytes) (l : List Slice) :
    Does now (removeEmpty key l) w ⟨⟩ (if l = [] then w.data.erase key else w.data) := by
  rw [removeEmpty]
  by_cases hl : l = []
  · rw [if_pos hl, if_pos (List.length_eq_zero_iff.mpr hl)]
    exact ⟨w.remove key, .of_modify _ w, rfl, h.remove key⟩
  · rw [if_neg hl, if_neg (fun hlen => hl (List.length_eq_zero_iff.mp hlen))]
    exact .pure h _

theorem currentList_does (h : Live now w) {l : List Slice} (hl : w.data.lookup key = some (.list l))
    (l' : List Slice) : Does now (currentList key l') w l w.data := by
  rw [currentList]
  refine ⟨w, ?_, rfl, h⟩
  refine Runs.bind (a := w) (t := w) rfl ?_
  rw [hl]
  exact .pure l w

/-- A list is put, and removed again when it is empty. -/
theorem putList_removeEmpty_does (h : Live now w) (key : Bytes) (l : List Slice) :
    Does now (do putList key l; removeEmpty key l) w ⟨⟩ (store w.data key l) := by
  apply (putList_does h key l).bind
  intro t hdata hlive
  have hremove := removeEmpty_does hlive key l
  rwa [hdata, erase_insert] at hremove

theorem viewOf_isList (h : Full d) (hkey : IsList d key) :
    viewOf (d.lookup key) = .ok (if seqOf d key = [] then none else some (seqOf d key)) := by
  rw [seqOf]
  cases hd : d.lookup key with
  | none => rfl
  | some e =>
      cases e with
      | list l =>
          rw [if_neg (h key l hd)]
          rfl
      | other e => exact absurd hd (hkey e)

theorem insert_seqOf (h : Full d) (hkey : IsList d key) (hne : seqOf d key ≠ []) :
    d.insert key (.list (seqOf d key)) = d :=
  (store_of_ne hne).symm.trans (store_seqOf h hkey)

theorem getOrInitList_does (h : Live now w) (hfull : Full w.data) (hkey : IsList w.data key) :
    Does now (getOrInitList now key) w (.ok (seqOf w.data key))
      (w.data.insert key (.list (seqOf w.data key))) := by
  rw [getOrInitList]
  apply (getAsList_does h key).bind
  intro t hdata hlive
  rw [viewOf_isList hfull hkey]
  by_cases hseq : seqOf w.data key = []
  · rw [if_pos hseq, hseq, ← hdata]
    exact (putList_does hlive key []).bind fun _ hdata' hlive' => hdata' ▸ .pure hlive' _
  · rw [if_neg hseq, insert_seqOf hfull hkey hseq, ← hdata]
    exact .pure hlive _

theorem insert_front (l : List Slice) (val : Slice) : insert l 0 val = some (val :: l) := by
  rw [insert]
  cases l with
  | nil => rfl
  | cons a l =>
      rw [if_neg (by rw [List.length_cons]; omega), position, if_pos (by simp)]
      rfl

theorem insertFront_does (h : Live now w) {l : List Slice} (hl : w.data.lookup key = some (.list l))
    (values : List Slice) :
    Does now (insertFront key l values) w (values.reverse ++ l)
      (w.data.insert key (.list (values.reverse ++ l))) := by
  induction values generalizing w l with
  | nil =>
      rw [List.reverse_nil, List.nil_append, insert_held hl]
      exact .pure h l
  | cons value values ih =>
      rw [insertFront, insert_front]
      apply (putList_does h key (value :: l)).bind
      intro t hdata hlive
      have hrest := ih hlive (l := value :: l) (by rw [hdata, Finmap.lookup_insert])
      rw [hdata, Finmap.insert_insert] at hrest
      rwa [List.reverse_cons, List.append_assoc, List.singleton_append]

theorem addBack_does (h : Live now w) {l : List Slice} (hl : w.data.lookup key = some (.list l))
    (values : List Slice) :
    Does now (addBack key l values) w (l ++ values) (w.data.insert key (.list (l ++ values))) := by
  induction values generalizing w l with
  | nil =>
      rw [List.append_nil, insert_held hl]
      exact .pure h l
  | cons value values ih =>
      rw [addBack]
      apply (putList_does h key (l ++ [value])).bind
      intro t hdata hlive
      have hrest := ih hlive (l := l ++ [value]) (by rw [hdata, Finmap.lookup_insert])
      rw [hdata, Finmap.insert_insert] at hrest
      rwa [List.append_assoc, List.singleton_append] at hrest

theorem reply_leaves (h : Live now w) (line : CmdLine) (reply : Reply) :
    Leaves now (do addAof line; return reply) w w.data :=
  (addAof_does h line).seq fun _ hdata hlive => hdata ▸ .pure hlive reply

end

section

variable {first : Slice} {values rest : List Slice}

theorem seqOf_lookup {d : Dict (Entity ε)} (hkey : IsList d key) (hne : seqOf d key ≠ []) :
    d.lookup key = some (.list (seqOf d key)) := by
  rw [seqOf] at hne ⊢
  cases hd : d.lookup key with
  | none =>
      rw [hd] at hne
      exact absurd rfl hne
  | some e =>
      cases e with
      | list l => rfl
      | other e => exact absurd hd (hkey e)

theorem insertFront_leaves (h : Live now w) {l : List Slice} (hl : w.data.lookup key = some (.list l))
    (hne : values ≠ []) (line : CmdLine) :
    Leaves now (do
      let l ← insertFront key l values
      addAof line
      return Reply.int l.length) w (store w.data key (values.reverse ++ l)) := by
  apply (insertFront_does h hl values).seq
  intro t hdata hlive
  rw [store_of_ne (by simp [hne]), ← hdata]
  exact reply_leaves hlive line _

theorem addBack_leaves (h : Live now w) {l : List Slice} (hl : w.data.lookup key = some (.list l))
    (hne : values ≠ []) (line : CmdLine) :
    Leaves now (do
      let l ← addBack key l values
      addAof line
      return Reply.int l.length) w (store w.data key (l ++ values)) := by
  apply (addBack_does h hl values).seq
  intro t hdata hlive
  rw [store_of_ne (by simp [hne]), ← hdata]
  exact reply_leaves hlive line _

theorem execLPush_leaves (h : Live now w) (hfull : Full w.data) (hkey : IsList w.data (text first))
    (hvalues : values ≠ []) : Leaves now (execLPush now (first :: values)) w
      (store w.data (text first) (values.reverse ++ seqOf w.data (text first))) := by
  apply (getOrInitList_does h hfull hkey).seq
  intro t hdata hlive
  have hlookup : t.data.lookup (text first) = some (.list (seqOf w.data (text first))) := by
    rw [hdata, Finmap.lookup_insert]
  have hpush := insertFront_leaves hlive hlookup hvalues (cmdLine3 "lpush" (first :: values))
  rwa [hdata, store_insert] at hpush

theorem execRPush_leaves (h : Live now w) (hfull : Full w.data) (hkey : IsList w.data (text first))
    (hvalues : values ≠ []) : Leaves now (execRPush now (first :: values)) w
      (store w.data (text first) (seqOf w.data (text first) ++ values)) := by
  apply (getOrInitList_does h hfull hkey).seq
  intro t hdata hlive
  have hlookup : t.data.lookup (text first) = some (.list (seqOf w.data (text first))) := by
    rw [hdata, Finmap.lookup_insert]
  have hpush := addBack_leaves hlive hlookup hvalues (cmdLine3 "rpush" (first :: values))
  rwa [hdata, store_insert] at hpush

/-- Nothing is pushed where there is no list. -/
theorem execLPushX_leaves (h : Live now w) (hfull : Full w.data) (hkey : IsList w.data (text first))
    (hvalues : values ≠ []) : Leaves now (execLPushX now (first :: values)) w
      (if seqOf w.data (text first) = [] then w.data
      else store w.data (text first) (values.reverse ++ seqOf w.data (text first))) := by
  apply (getAsList_does h (text first)).seq
  intro t hdata hlive
  rw [viewOf_isList hfull hkey]
  by_cases hseq : seqOf w.data (text first) = []
  · rw [if_pos hseq, if_pos hseq, ← hdata]
    exact .pure hlive _
  · rw [if_neg hseq, if_neg hseq]
    have hlookup := seqOf_lookup hkey hseq
    rw [← hdata] at hlookup ⊢
    exact insertFront_leaves hlive hlookup hvalues _

theorem execRPushX_leaves (h : Live now w) (hfull : Full w.data) (hkey : IsList w.data (text first))
    (hvalues : values ≠ []) : Leaves now (execRPushX now (first :: values)) w
      (if seqOf w.data (text first) = [] then w.data
      else store w.data (text first) (seqOf w.data (text first) ++ values)) := by
  obtain ⟨value, values, rfl⟩ := List.exists_cons_of_ne_nil hvalues
  apply (getAsList_does h (text first)).seq
  intro t hdata hlive
  rw [viewOf_isList hfull hkey]
  by_cases hseq : seqOf w.data (text first) = []
  · rw [if_pos hseq, if_pos hseq, ← hdata]
    exact .pure hlive _
  · rw [if_neg hseq, if_neg hseq]
    have hlookup := seqOf_lookup hkey hseq
    rw [← hdata] at hlookup ⊢
    exact addBack_leaves hlive hlookup hvalues _

theorem putList_removeEmpty_leaves (h : Live now w) (key : Bytes) (l : List Slice) (line : CmdLine)
    (reply : Reply) : Leaves now (do
      putList key l
      removeEmpty key l
      addAof line
      return reply) w (store w.data key l) := by
  have hput := putList_removeEmpty_does h key l
  have hrest := hput.seq (f := fun _ => do addAof line; return reply) fun t hdata hlive =>
    hdata ▸ reply_leaves hlive line reply
  simpa only [bind_assoc] using hrest

/-- An absent key and a list alike lose their first element. -/
theorem execLPop_leaves (h : Live now w) (hfull : Full w.data) (hkey : IsList w.data (text first)) :
    Leaves now (execLPop now (first :: rest)) w
      (store w.data (text first) (seqOf w.data (text first)).tail) := by
  apply (getAsList_does h (text first)).seq
  intro t hdata hlive
  rw [viewOf_isList hfull hkey]
  cases hseq : seqOf w.data (text first) with
  | nil =>
      rw [if_pos rfl, List.tail_nil, ← hseq, store_seqOf hfull hkey, ← hdata]
      exact .pure hlive _
  | cons val l =>
      have hremove : remove (val :: l) 0 = some (l, val) := by
        rw [remove, position, if_pos (by simp)]
        rfl
      rw [if_neg (List.cons_ne_nil val l), List.tail_cons, ← hdata]
      dsimp only
      rw [hremove]
      exact putList_removeEmpty_leaves hlive _ l _ _

theorem execRPop_leaves (h : Live now w) (hfull : Full w.data) (hkey : IsList w.data (text first)) :
    Leaves now (execRPop now (first :: rest)) w
      (store w.data (text first) (seqOf w.data (text first)).dropLast) := by
  apply (getAsList_does h (text first)).seq
  intro t hdata hlive
  rw [viewOf_isList hfull hkey]
  by_cases hseq : seqOf w.data (text first) = []
  · rw [if_pos hseq, hseq, List.dropLast_nil, ← hseq, store_seqOf hfull hkey, ← hdata]
    exact .pure hlive _
  · rw [if_neg hseq, ← hdata]
    exact putList_removeEmpty_leaves hlive _ _ _ _

theorem set_eq {l : List Slice} {index : Int} (hlow : 0 ≤ index) (hhigh : index < l.length) (val : Slice) :
    set l index val = some (l.set index.toNat val) := by
  rw [set, position, if_pos ⟨hlow, hhigh⟩]
  rfl

theorem get_eq {l : List Slice} {index : Int} (hlow : 0 ≤ index) (hhigh : index < l.length) :
    get l index = l[index.toNat]? := by
  rw [get, position, if_pos ⟨hlow, hhigh⟩]
  rfl

/-- A present list whose index is in range has its element set. -/
theorem execLSet_leaves (h : Live now w) (hfull : Full w.data) (hkey : IsList w.data (text first))
    {rawIndex value : Slice} {n index : Int} (hn : parseInt 64 (text rawIndex) = some n)
    (hindex : elementIndex n (seqOf w.data (text first)).length = some index)
    (hlow : 0 ≤ index) (hhigh : index < (seqOf w.data (text first)).length) :
    Leaves now (execLSet now (first :: rawIndex :: value :: rest)) w
      (store w.data (text first) ((seqOf w.data (text first)).set index.toNat value)) := by
  have hne : seqOf w.data (text first) ≠ [] := by
    intro hnil
    rw [hnil] at hhigh
    simp at hhigh
    omega
  rw [execLSet]
  simp only [hn]
  apply (getAsList_does h (text first)).seq
  intro t hdata hlive
  rw [viewOf_isList hfull hkey, if_neg hne]
  dsimp only
  rw [hindex]
  dsimp only
  rw [set_eq hlow hhigh, store_of_ne (by simpa using hne), ← hdata]
  apply (putList_does hlive _ _).seq
  intro u hdata' hlive'
  rw [← hdata']
  exact reply_leaves hlive' _ _

/-- What is put on the way when an element is moved. -/
theorem store_moved (d : Dict (Entity ε)) (source dest : Bytes) (val : Slice)
    (init l destList : List Slice) :
    store (store d source l) dest (val :: destList) =
      let moved := ((d.insert dest (.list init)).insert source (.list l)).insert dest
        (.list (val :: destList))
      if (if source = dest then val :: destList else l) = [] then moved.erase source else moved := by
  apply Finmap.ext_lookup
  intro k
  rw [lookup_store, lookup_store, if_neg (List.cons_ne_nil val destList)]
  by_cases hkeys : source = dest
  · subst hkeys
    rw [if_pos rfl, if_neg (List.cons_ne_nil val destList), Finmap.insert_insert, Finmap.insert_insert]
    by_cases hk : k = source
    · rw [if_pos hk, hk, Finmap.lookup_insert]
    · rw [if_neg hk, if_neg hk, Finmap.lookup_insert_of_ne _ hk]
  · have hmoved : (((d.insert dest (.list init)).insert source (.list l)).insert dest
        (.list (val :: destList))).lookup k =
        if k = dest then some (.list (val :: destList)) else if k = source then some (.list l)
        else d.lookup k := by
      by_cases hdest : k = dest
      · rw [if_pos hdest, hdest, Finmap.lookup_insert]
      · rw [if_neg hdest, Finmap.lookup_insert_of_ne _ hdest]
        by_cases hsource : k = source
        · rw [if_pos hsource, hsource, Finmap.lookup_insert]
        · rw [if_neg hsource, Finmap.lookup_insert_of_ne _ hsource, Finmap.lookup_insert_of_ne _ hdest]
    rw [if_neg hkeys]
    by_cases hl : l = []
    · rw [if_pos hl, if_pos hl]
      by_cases hsource : k = source
      · rw [if_neg (by rw [hsource]; exact hkeys), if_pos hsource, hsource, Finmap.lookup_erase]
      · rw [Finmap.lookup_erase_ne hsource, hmoved, if_neg hsource, if_neg hsource]
    · rw [if_neg hl, if_neg hl, hmoved]

/-- The last element of the source becomes the first one of the destination, also where both are
the same. -/
theorem execRPopLPush_leaves (h : Live now w) (hfull : Full w.data) {source dest : Slice}
    (hsource : IsList w.data (text source)) (hdest : IsList w.data (text dest))
    {l : List Slice} {val : Slice} (hseq : seqOf w.data (text source) = l ++ [val]) :
    Leaves now (execRPopLPush now (source :: dest :: rest)) w
      (store (store w.data (text source) l) (text dest)
        (val :: seqOf (store w.data (text source) l) (text dest))) := by
  have hne : l ++ [val] ≠ [] := by simp
  apply (getAsList_does h (text source)).seq
  intro t hdata hlive
  rw [viewOf_isList hfull hsource, hseq, if_neg hne]
  dsimp only
  rw [← hdata] at hfull hdest ⊢
  apply (getOrInitList_does hlive hfull hdest).seq
  intro t₁ hdata₁ hlive₁
  have hpop : removeLast (l ++ [val]) = (l, val) := by simp [removeLast]
  dsimp only
  rw [hpop]
  dsimp only
  apply (putList_does hlive₁ (text source) l).seq
  intro t₂ hdata₂ hlive₂
  have hdestList : t₂.data.lookup (text dest) =
      some (.list (seqOf (store t.data (text source) l) (text dest))) := by
    rw [hdata₂, seqOf_store]
    by_cases hkeys : text dest = text source
    · rw [if_pos hkeys, hkeys, Finmap.lookup_insert]
    · rw [if_neg hkeys, Finmap.lookup_insert_of_ne _ hkeys, hdata₁, Finmap.lookup_insert]
  generalize seqOf (store t.data (text source) l) (text dest) = destList at hdestList ⊢
  apply (currentList_does hlive₂ hdestList _).seq
  intro t₃ hdata₃ hlive₃
  rw [insert_front]
  dsimp only
  apply (putList_does hlive₃ (text dest) (val :: destList)).seq
  intro t₄ hdata₄ hlive₄
  rw [hdata₃, hdata₂, hdata₁] at hdata₄
  have hsourceList : t₄.data.lookup (text source) =
      some (.list (if text source = text dest then val :: destList else l)) := by
    rw [hdata₄]
    by_cases hkeys : text source = text dest
    · rw [if_pos hkeys, hkeys, Finmap.lookup_insert]
    · rw [if_neg hkeys, Finmap.lookup_insert_of_ne _ hkeys, Finmap.lookup_insert]
  apply (currentList_does hlive₄ hsourceList _).seq
  intro t₅ hdata₅ hlive₅
  apply (removeEmpty_does hlive₅ _ _).seq
  intro t₆ hdata₆ hlive₆
  have hfinal : store (store t.data (text source) l) (text dest) (val :: destList) = t₆.data := by
    rw [hdata₆, hdata₅, hdata₄]
    exact store_moved t.data _ _ _ _ l destList
  rw [hfinal]
  exact reply_leaves hlive₆ _ _

end

section

variable {d : Dict (Entity ε)} {first : Slice} {args : List Slice} {reply : Reply}

/-- The line of a command is run by its executor. -/
theorem execWithLock_line {name : Slice} {c : ListCommand} (hc : cmdTable (toLower (text name)) = some c)
    (harity : validateArity c.arity (name :: args) = true) :
    execWithLock (ε := ε) now (name :: args) = c.executor now args := by
  rw [execWithLock]
  simp only [hc, harity, if_true]

theorem execLines_cons {line : CmdLine} {lines : List CmdLine} {d' : Dict (Entity ε)}
    (hline : Leaves now (execWithLock now line) w d)
    (hlines : ∀ t : World ε, t.data = d → Live now t → Leaves now (execUndo now lines) t d') :
    Leaves now (execUndo now (line :: lines)) w d' := by
  obtain ⟨reply, hdoes⟩ := hline
  exact hdoes.seq hlines

theorem execLines_single {line : CmdLine} (hline : Leaves now (execWithLock now line) w d) :
    Leaves now (execUndo now [line]) w d :=
  execLines_cons hline fun _ hdata hlive => hdata ▸ .pure hlive _

/-- Each line pops one element from the front. -/
theorem execLines_lPop (h : Live now w) (hfull : Full w.data) (hkey : IsList w.data key)
    (values : List Slice) :
    Leaves now (execUndo now (values.map fun _ => cmdLine "LPOP" [key])) w
      (store w.data key ((seqOf w.data key).drop values.length)) := by
  induction values generalizing w with
  | nil =>
      rw [List.length_nil, List.drop_zero, store_seqOf hfull hkey]
      exact .pure h _
  | cons value values ih =>
      have hline : execWithLock (ε := ε) now (cmdLine "LPOP" [key]) = execLPop now [some key] :=
        execWithLock_line (c := .lPop) (by decide) rfl
      have hpop : Leaves now (execLPop now [some key]) w (store w.data key (seqOf w.data key).tail) :=
        execLPop_leaves h hfull hkey
      apply execLines_cons (hline ▸ hpop)
      intro t hdata hlive
      have hrest := ih hlive (hdata ▸ full_store hfull _ _) (hdata ▸ isList_store hkey _ _)
      rw [hdata, store_store, seqOf_store, if_pos rfl, List.drop_tail] at hrest
      exact hrest

theorem execLines_rPop (h : Live now w) (hfull : Full w.data) (hkey : IsList w.data key)
    (values : List Slice) :
    Leaves now (execUndo now (values.map fun _ => cmdLine "RPOP" [key])) w
      (store w.data key ((seqOf w.data key).take ((seqOf w.data key).length - values.length))) := by
  induction values generalizing w with
  | nil =>
      rw [List.length_nil, Nat.sub_zero, List.take_length, store_seqOf hfull hkey]
      exact .pure h _
  | cons value values ih =>
      have hline : execWithLock (ε := ε) now (cmdLine "RPOP" [key]) = execRPop now [some key] :=
        execWithLock_line (c := .rPop) (by decide) rfl
      have hpop : Leaves now (execRPop now [some key]) w (store w.data key (seqOf w.data key).dropLast) :=
        execRPop_leaves h hfull hkey
      apply execLines_cons (hline ▸ hpop)
      intro t hdata hlive
      have hrest := ih hlive (hdata ▸ full_store hfull _ _) (hdata ▸ isList_store hkey _ _)
      have hlen : min (min ((seqOf w.data key).length - 1) (seqOf w.data key).length - values.length)
          ((seqOf w.data key).length - 1) = (seqOf w.data key).length - (values.length + 1) := by omega
      rw [hdata, store_store, seqOf_store, if_pos rfl, List.dropLast_eq_take, List.length_take,
        List.take_take, hlen] at hrest
      exact hrest

/-- The lines found before restore the data after the program. -/
def Undone (now : Int) (undo : Exec ε (List CmdLine)) (m : Exec ε Reply) (w : World ε) : Prop :=
  ∃ lines, Runs undo w lines w ∧ Leaves now (execUndo now lines) (final m w) w.data

/-- What runs leave is known up to what no command looks at. -/
theorem Undone.of_leaves {undo : Exec ε (List CmdLine)} {m : Exec ε Reply} {lines : List CmdLine}
    (hundo : Runs undo w lines w) (hm : Leaves now m w d)
    (hlines : ∀ t : World ε, t.data = d → Live now t → Leaves now (execUndo now lines) t w.data) :
    Undone now undo m w := by
  obtain ⟨reply, t, hrun, hdata, hlive⟩ := hm
  exact ⟨lines, hundo, hrun.final ▸ hlines t hdata hlive⟩

/-- A key of another type is answered with an error. -/
theorem isList_of_reply {m : Exec ε Reply} {f : Except Reply (Option (List Slice)) → Exec ε Reply}
    (h : Live now w) (hm : m = getAsList now key >>= f) (hf : f (.error .wrongTypeErr) = pure .wrongTypeErr)
    (hreply : value m w = some reply) (hok : isErrorReply reply = false) : IsList w.data key := by
  intro e he
  have hview := getAsList_runs h key
  rw [he] at hview
  have hrun : Runs m w .wrongTypeErr w := by
    rw [hm]
    exact hview.bind (hf ▸ .pure _ w)
  rw [hrun.value] at hreply
  cases hreply
  exact absurd hok (by decide)

theorem isList_of_init_reply {m : Exec ε Reply} {f : Except Reply (List Slice) → Exec ε Reply}
    (h : Live now w) (hm : m = getOrInitList now key >>= f)
    (hf : f (.error .wrongTypeErr) = pure .wrongTypeErr)
    (hreply : value m w = some reply) (hok : isErrorReply reply = false) : IsList w.data key :=
  isList_of_reply h (hm.trans (by rw [getOrInitList, bind_assoc])) (by simpa using hf) hreply hok

theorem undoElement_empty (h : Live now w) (hfull : Full w.data) (hkey : IsList w.data key)
    (hseq : seqOf w.data key = []) (index : Int → Option Int) (lines : Slice → List CmdLine) :
    Runs (undoElement now key index lines) w [] w := by
  apply (getAsList_runs h key).bind
  rw [viewOf_isList hfull hkey, if_pos hseq]
  exact .pure [] w

theorem undoElement_at (h : Live now w) (hfull : Full w.data) (hkey : IsList w.data key)
    {index : Int → Option Int} {i : Int} (hindex : index (seqOf w.data key).length = some i)
    {element : Slice} (hget : get (seqOf w.data key) i = some element) (lines : Slice → List CmdLine) :
    Runs (undoElement now key index lines) w (lines element) w := by
  have hne : seqOf w.data key ≠ [] := by
    intro hnil
    rw [hnil, get, position, if_neg (by simp)] at hget
    exact Option.some_ne_none element hget.symm
  apply (getAsList_runs h key).bind
  rw [viewOf_isList hfull hkey, if_neg hne]
  dsimp only
  rw [hindex]
  dsimp only
  rw [hget]
  exact .pure _ w

theorem get_last (l : List Slice) (val : Slice) :
    get (l ++ [val]) ((l ++ [val]).length - 1) = some val := by
  have hlen : (((l ++ [val]).length : Nat) : Int) - 1 = l.length := by simp
  rw [hlen, get_eq (by omega) (by simp)]
  simp

theorem lastIndex_append (l : List Slice) (val : Slice) :
    lastIndex (l ++ [val]).length = some (((l ++ [val]).length : Int) - 1) := by
  rw [lastIndex, if_neg (by simp; omega)]

theorem get_head (val : Slice) (l : List Slice) : get (val :: l) 0 = some val := by
  rw [get_eq (Int.le_refl 0) (by simp)]
  rfl

/-- As many elements are popped from the front as were pushed to it. -/
theorem unpushed_front (hfull : Full w.data) (hkey : IsList w.data key) {values pushed : List Slice}
    (hlen : pushed.length = values.length) {t : World ε}
    (hdata : t.data = store w.data key (pushed ++ seqOf w.data key)) (hlive : Live now t) :
    Leaves now (execUndo now (values.map fun _ => cmdLine "LPOP" [key])) t w.data := by
  have hlines := execLines_lPop hlive (hdata ▸ full_store hfull _ _) (hdata ▸ isList_store hkey _ _) values
  rwa [hdata, store_store, seqOf_store, if_pos rfl, ← hlen, List.drop_left, store_seqOf hfull hkey] at hlines

theorem unpushed_back (hfull : Full w.data) (hkey : IsList w.data key) {values : List Slice} {t : World ε}
    (hdata : t.data = store w.data key (seqOf w.data key ++ values)) (hlive : Live now t) :
    Leaves now (execUndo now (values.map fun _ => cmdLine "RPOP" [key])) t w.data := by
  have hlines := execLines_rPop hlive (hdata ▸ full_store hfull _ _) (hdata ▸ isList_store hkey _ _) values
  rwa [hdata, store_store, seqOf_store, if_pos rfl, List.length_append, Nat.add_sub_cancel,
    List.take_left, store_seqOf hfull hkey] at hlines

/-- Nothing is popped where nothing was pushed to. -/
theorem unpushed_absent (hfull : Full w.data) (hkey : IsList w.data key) (hseq : seqOf w.data key = [])
    (values : List Slice) {t : World ε} (hdata : t.data = w.data) (hlive : Live now t) :
    Leaves now (execUndo now (values.map fun _ => cmdLine "LPOP" [key])) t w.data ∧
      Leaves now (execUndo now (values.map fun _ => cmdLine "RPOP" [key])) t w.data := by
  have hfront := execLines_lPop hlive (hdata ▸ hfull) (hdata ▸ hkey) values
  have hback := execLines_rPop hlive (hdata ▸ hfull) (hdata ▸ hkey) values
  rw [hdata, hseq, List.drop_nil, ← hseq, store_seqOf hfull hkey] at hfront
  rw [hdata, hseq, List.take_nil, ← hseq, store_seqOf hfull hkey] at hback
  exact ⟨hfront, hback⟩

variable {values rest : List Slice}

theorem lPush_undone (h : Live now w) (hfull : Full w.data) (hvalues : values ≠ [])
    (hreply : value (execLPush now (first :: values)) w = some reply) (hok : isErrorReply reply = false) :
    Undone now (undoLPush (first :: values)) (execLPush now (first :: values)) w := by
  have hkey : IsList w.data (text first) := isList_of_init_reply h rfl rfl hreply hok
  exact .of_leaves (.pure _ w) (execLPush_leaves h hfull hkey hvalues) fun t hdata hlive =>
    unpushed_front hfull hkey (List.length_reverse ..) hdata hlive

theorem rPush_undone (h : Live now w) (hfull : Full w.data) (hvalues : values ≠ [])
    (hreply : value (execRPush now (first :: values)) w = some reply) (hok : isErrorReply reply = false) :
    Undone now (undoRPush (first :: values)) (execRPush now (first :: values)) w := by
  have hkey : IsList w.data (text first) := isList_of_init_reply h rfl rfl hreply hok
  exact .of_leaves (.pure _ w) (execRPush_leaves h hfull hkey hvalues) fun t hdata hlive =>
    unpushed_back hfull hkey hdata hlive

theorem lPushX_undone (h : Live now w) (hfull : Full w.data) (hvalues : values ≠ [])
    (hreply : value (execLPushX now (first :: values)) w = some reply) (hok : isErrorReply reply = false) :
    Undone now (undoLPush (first :: values)) (execLPushX now (first :: values)) w := by
  have hkey : IsList w.data (text first) := isList_of_reply h rfl rfl hreply hok
  refine .of_leaves (.pure _ w) (execLPushX_leaves h hfull hkey hvalues) fun t hdata hlive => ?_
  by_cases hseq : seqOf w.data (text first) = []
  · rw [if_pos hseq] at hdata
    exact (unpushed_absent hfull hkey hseq values hdata hlive).1
  · rw [if_neg hseq] at hdata
    exact unpushed_front hfull hkey (List.length_reverse ..) hdata hlive

theorem rPushX_undone (h : Live now w) (hfull : Full w.data) (hvalues : values ≠ [])
    (hreply : value (execRPushX now (first :: values)) w = some reply) (hok : isErrorReply reply = false) :
    Undone now (undoRPush (first :: values)) (execRPushX now (first :: values)) w := by
  have hkey : IsList w.data (text first) := by
    obtain ⟨value, values, rfl⟩ := List.exists_cons_of_ne_nil hvalues
    exact isList_of_reply h rfl rfl hreply hok
  refine .of_leaves (.pure _ w) (execRPushX_leaves h hfull hkey hvalues) fun t hdata hlive => ?_
  by_cases hseq : seqOf w.data (text first) = []
  · rw [if_pos hseq] at hdata
    exact (unpushed_absent hfull hkey hseq values hdata hlive).2
  · rw [if_neg hseq] at hdata
    exact unpushed_back hfull hkey hdata hlive

theorem lPop_undone (h : Live now w) (hfull : Full w.data)
    (hreply : value (execLPop now (first :: rest)) w = some reply) (hok : isErrorReply reply = false) :
    Undone now (undoLPop now (first :: rest)) (execLPop now (first :: rest)) w := by
  have hkey : IsList w.data (text first) := isList_of_reply h rfl rfl hreply hok
  have hpop : Leaves now (execLPop now (first :: rest)) w
      (store w.data (text first) (seqOf w.data (text first)).tail) := execLPop_leaves h hfull hkey
  cases hseq : seqOf w.data (text first) with
  | nil =>
      rw [hseq, List.tail_nil, ← hseq, store_seqOf hfull hkey] at hpop
      have hundo : Runs (undoLPop now (first :: rest)) w [] w := by
        rw [undoLPop]
        exact undoElement_empty h hfull hkey hseq _ _
      refine .of_leaves hundo hpop fun t hdata hlive => ?_
      rw [← hdata]
      exact .pure hlive _
  | cons val l =>
      rw [hseq, List.tail_cons] at hpop
      have hundo : Runs (undoLPop now (first :: rest)) w [cmdLine3 "LPUSH" [first, val]] w := by
        have hsize : ((seqOf w.data (text first)).length : Int) ≠ 0 := by
          rw [hseq, List.length_cons]
          omega
        rw [undoLPop]
        exact undoElement_at h hfull hkey (if_neg hsize) (by rw [hseq, get_head]) _
      refine .of_leaves hundo hpop fun t hdata hlive => execLines_single ?_
      have hpush : Leaves now (execLPush now [first, val]) t
          (store t.data (text first) ([val].reverse ++ seqOf t.data (text first))) :=
        execLPush_leaves hlive (hdata ▸ full_store hfull _ _) (hdata ▸ isList_store hkey _ _)
          (List.cons_ne_nil val [])
      rw [hdata, store_store, seqOf_store, if_pos rfl, List.reverse_singleton, List.singleton_append,
        ← hseq, store_seqOf hfull hkey] at hpush
      rw [cmdLine3, execWithLock_line (c := .lPush) (by decide) rfl]
      exact hpush

theorem rPop_undone (h : Live now w) (hfull : Full w.data)
    (hreply : value (execRPop now (first :: rest)) w = some reply) (hok : isErrorReply reply = false) :
    Undone now (undoRPop now (first :: rest)) (execRPop now (first :: rest)) w := by
  have hkey : IsList w.data (text first) := isList_of_reply h rfl rfl hreply hok
  have hpop : Leaves now (execRPop now (first :: rest)) w
      (store w.data (text first) (seqOf w.data (text first)).dropLast) := execRPop_leaves h hfull hkey
  rcases List.eq_nil_or_concat' (seqOf w.data (text first)) with hseq | ⟨l, val, hseq⟩
  · rw [hseq, List.dropLast_nil, ← hseq, store_seqOf hfull hkey] at hpop
    have hundo : Runs (undoRPop now (first :: rest)) w [] w := undoElement_empty h hfull hkey hseq _ _
    refine .of_leaves hundo hpop fun t hdata hlive => ?_
    rw [← hdata]
    exact .pure hlive _
  · rw [hseq, List.dropLast_concat] at hpop
    have hundo : Runs (undoRPop now (first :: rest)) w [cmdLine3 "RPUSH" [first, val]] w :=
      undoElement_at h hfull hkey (by rw [hseq, lastIndex_append]) (by rw [hseq, get_last])
        fun element => [cmdLine3 "RPUSH" [first, element]]
    refine .of_leaves hundo hpop fun t hdata hlive => execLines_single ?_
    have hpush : Leaves now (execRPush now [first, val]) t
        (store t.data (text first) (seqOf t.data (text first) ++ [val])) :=
      execRPush_leaves hlive (hdata ▸ full_store hfull _ _) (hdata ▸ isList_store hkey _ _)
        (List.cons_ne_nil val [])
    rw [hdata, store_store, seqOf_store, if_pos rfl, ← hseq, store_seqOf hfull hkey] at hpush
    rw [cmdLine3, execWithLock_line (c := .rPush) (by decide) rfl]
    exact hpush

theorem elementIndex_range {n size index : Int} (h : elementIndex n size = some index) :
    0 ≤ index ∧ index < size := by
  rw [elementIndex] at h
  split at h
  · cases h
  · split at h
    · cases h
      omega
    · split at h
      · cases h
      · cases h
        omega

/-- An element is set when there is a list that has it. -/
theorem execLSet_reply (h : Live now w) (hfull : Full w.data) {rawIndex val : Slice}
    (hreply : value (execLSet now (first :: rawIndex :: val :: rest)) w = some reply)
    (hok : isErrorReply reply = false) :
    ∃ n index, parseInt 64 (text rawIndex) = some n ∧ IsList w.data (text first) ∧
      elementIndex n (seqOf w.data (text first)).length = some index := by
  rw [execLSet] at hreply
  cases hn : parseInt 64 (text rawIndex) with
  | none =>
      simp only [hn] at hreply
      cases hreply
      exact absurd hok (by decide)
  | some n =>
      simp only [hn] at hreply
      have hkey : IsList w.data (text first) := isList_of_reply h rfl rfl hreply hok
      refine ⟨n, ?_⟩
      have hview := getAsList_runs h (text first)
      rw [viewOf_isList hfull hkey] at hview
      by_cases hseq : seqOf w.data (text first) = []
      · rw [if_pos hseq] at hview
        rw [value_bind, hview.value, hview.final] at hreply
        cases hreply
        exact absurd hok (by decide)
      · cases hindex : elementIndex n (seqOf w.data (text first)).length with
        | some index => exact ⟨index, rfl, hkey, rfl⟩
        | none =>
            rw [if_neg hseq] at hview
            rw [value_bind, hview.value, hview.final] at hreply
            simp only [Option.bind_some, hindex] at hreply
            cases hreply
            exact absurd hok (by decide)

theorem lSet_undone (h : Live now w) (hfull : Full w.data) {rawIndex val : Slice}
    (hreply : value (execLSet now (first :: rawIndex :: val :: rest)) w = some reply)
    (hok : isErrorReply reply = false) :
    Undone now (undoLSet now (first :: rawIndex :: val :: rest))
      (execLSet now (first :: rawIndex :: val :: rest)) w := by
  obtain ⟨n, index, hn, hkey, hindex⟩ := execLSet_reply h hfull hreply hok
  obtain ⟨hlow, hhigh⟩ := elementIndex_range hindex
  have hlt : index.toNat < (seqOf w.data (text first)).length := by omega
  obtain ⟨old, hold⟩ : ∃ old, (seqOf w.data (text first))[index.toNat]? = some old :=
    ⟨_, List.getElem?_eq_getElem hlt⟩
  have hundo : Runs (undoLSet now (first :: rawIndex :: val :: rest)) w
      [cmdLine3 "LSET" [first, rawIndex, old]] w := by
    rw [undoLSet]
    simp only [hn]
    exact undoElement_at h hfull hkey hindex (by rw [get_eq hlow hhigh, hold]) _
  refine .of_leaves hundo (execLSet_leaves h hfull hkey hn hindex hlow hhigh) fun t hdata hlive =>
    execLines_single ?_
  have hseq : seqOf t.data (text first) = (seqOf w.data (text first)).set index.toNat val := by
    rw [hdata, seqOf_store, if_pos rfl]
  have hlen : (seqOf t.data (text first)).length = (seqOf w.data (text first)).length := by
    rw [hseq, List.length_set]
  have hset : Leaves now (execLSet now [first, rawIndex, old]) t
      (store t.data (text first) ((seqOf t.data (text first)).set index.toNat old)) :=
    execLSet_leaves hlive (hdata ▸ full_store hfull _ _) (hdata ▸ isList_store hkey _ _) hn
      (by rw [hlen, hindex]) hlow (by rw [hlen]; exact hhigh)
  have hback : ((seqOf w.data (text first)).set index.toNat val).set index.toNat old =
      seqOf w.data (text first) := by
    obtain ⟨_, rfl⟩ := List.getElem?_eq_some_iff.mp hold
    rw [List.set_set, List.set_getElem_self]
  rw [hseq, hback, hdata, store_store, store_seqOf hfull hkey] at hset
  rw [cmdLine3, execWithLock_line (c := .lSet) (by decide) rfl]
  exact hset

/-- The moved element is put back at the end of the source, and taken from the front of the
destination. -/
theorem store_moved_back (hfull : Full d) {source dest : Bytes} (hsource : IsList d source)
    (hdest : IsList d dest) {l : List Slice} {val : Slice} (hseq : seqOf d source = l ++ [val]) :
    let moved := store (store d source l) dest (val :: seqOf (store d source l) dest)
    let pushed := store moved source (seqOf moved source ++ [val])
    store pushed dest (seqOf pushed dest).tail = d := by
  dsimp only
  by_cases hkeys : dest = source
  · subst hkeys
    simp only [store_store, seqOf_store, if_true, List.cons_append, List.tail_cons]
    rw [← hseq, store_seqOf hfull hsource]
  · have hkeys' : source ≠ dest := fun h => hkeys h.symm
    simp only [seqOf_store, if_neg hkeys, if_neg hkeys', if_true, List.tail_cons]
    rw [← hseq, store_comm _ hkeys', store_store, ← store_comm d hkeys, store_seqOf hfull hdest,
      store_store, store_seqOf hfull hsource]

/-- An element is moved when both keys hold lists or nothing. -/
theorem execRPopLPush_reply (h : Live now w) (hfull : Full w.data) {source dest : Slice}
    (hreply : value (execRPopLPush now (source :: dest :: rest)) w = some reply)
    (hok : isErrorReply reply = false) :
    IsList w.data (text source) ∧
      (seqOf w.data (text source) ≠ [] → IsList w.data (text dest)) := by
  have hsource : IsList w.data (text source) := isList_of_reply h rfl rfl hreply hok
  refine ⟨hsource, fun hseq => ?_⟩
  have hview := getAsList_runs h (text source)
  rw [viewOf_isList hfull hsource, if_neg hseq] at hview
  rw [execRPopLPush, value_bind, hview.value, hview.final] at hreply
  exact isList_of_init_reply h rfl rfl hreply hok

theorem rPopLPush_undone (h : Live now w) (hfull : Full w.data) {source dest : Slice}
    (hreply : value (execRPopLPush now (source :: dest :: rest)) w = some reply)
    (hok : isErrorReply reply = false) :
    Undone now (undoRPopLPush now (source :: dest :: rest))
      (execRPopLPush now (source :: dest :: rest)) w := by
  obtain ⟨hsource, hdest⟩ := execRPopLPush_reply h hfull hreply hok
  rcases List.eq_nil_or_concat' (seqOf w.data (text source)) with hseq | ⟨l, val, hseq⟩
  · have hundo : Runs (undoRPopLPush now (source :: dest :: rest)) w [] w :=
      undoElement_empty h hfull hsource hseq _ _
    have hnull : Leaves now (execRPopLPush now (source :: dest :: rest)) w w.data := by
      apply (getAsList_does h (text source)).seq
      intro t hdata hlive
      rw [viewOf_isList hfull hsource, if_pos hseq, ← hdata]
      exact .pure hlive _
    refine .of_leaves hundo hnull fun t hdata hlive => ?_
    rw [← hdata]
    exact .pure hlive _
  · replace hdest := hdest (by simp [hseq])
    have hundo : Runs (undoRPopLPush now (source :: dest :: rest)) w
        [cmdLine3 "RPUSH" [source, val], cmdLine3 "LPOP" [dest]] w :=
      undoElement_at h hfull hsource (by rw [hseq, lastIndex_append]) (by rw [hseq, get_last])
        fun element => [cmdLine3 "RPUSH" [source, element], cmdLine3 "LPOP" [dest]]
    refine .of_leaves hundo (execRPopLPush_leaves h hfull hsource hdest hseq) fun t hdata hlive => ?_
    have hback := store_moved_back hfull hsource hdest hseq
    dsimp only at hback
    rw [← hdata] at hback
    have hfull' : Full t.data := hdata ▸ full_store (full_store hfull _ _) _ _
    have hsource' : IsList t.data (text source) := hdata ▸ isList_store (isList_store hsource _ _) _ _
    have hdest' : IsList t.data (text dest) := hdata ▸ isList_store (isList_store hdest _ _) _ _
    have hpush : Leaves now (execRPush now [source, val]) t
        (store t.data (text source) (seqOf t.data (text source) ++ [val])) :=
      execRPush_leaves hlive hfull' hsource' (List.cons_ne_nil val [])
    have hline : execWithLock (ε := ε) now (cmdLine3 "RPUSH" [source, val]) = execRPush now [source, val] :=
      execWithLock_line (c := .rPush) (by decide) rfl
    refine execLines_cons (hline ▸ hpush) fun u hdata' hlive' => execLines_single ?_
    have hpop : Leaves now (execLPop now [dest]) u
        (store u.data (text dest) (seqOf u.data (text dest)).tail) :=
      execLPop_leaves hlive' (hdata' ▸ full_store hfull' _ _) (hdata' ▸ isList_store hdest' _ _)
    rw [hdata', hback] at hpop
    rw [cmdLine3, execWithLock_line (c := .lPop) (by decide) rfl]
    exact hpop

theorem args_two {name : Slice} (h : validateArity (-3) (name :: args) = true) :
    ∃ first values, args = first :: values ∧ values ≠ [] := by
  cases args with
  | nil => simp [validateArity] at h
  | cons first values =>
      cases values with
      | nil => simp [validateArity] at h
      | cons value values => exact ⟨first, value :: values, rfl, List.cons_ne_nil _ _⟩

/-- The arguments that a line needs for a command that takes a fixed number of them. -/
theorem args_length {name : Slice} {n : Nat} (h : validateArity (n + 1 : Nat) (name :: args) = true) :
    args.length = n := by
  rw [validateArity, if_pos (Int.natCast_nonneg _)] at h
  have hlen := of_decide_eq_true h
  rw [List.length_cons] at hlen
  omega

theorem executor_undone (h : Live now w) (hfull : Full w.data) (c : ListCommand) {name : Slice}
    (harity : validateArity c.arity (name :: args) = true)
    (hreply : value (c.executor now args) w = some reply) (hok : isErrorReply reply = false) :
    Undone now (c.undo now args) (c.executor now args) w := by
  cases c with
  | lPush =>
      obtain ⟨first, values, rfl, hvalues⟩ := args_two harity
      exact lPush_undone h hfull hvalues hreply hok
  | lPushX =>
      obtain ⟨first, values, rfl, hvalues⟩ := args_two harity
      exact lPushX_undone h hfull hvalues hreply hok
  | rPush =>
      obtain ⟨first, values, rfl, hvalues⟩ := args_two harity
      exact rPush_undone h hfull hvalues hreply hok
  | rPushX =>
      obtain ⟨first, values, rfl, hvalues⟩ := args_two harity
      exact rPushX_undone h hfull hvalues hreply hok
  | lPop =>
      obtain ⟨first, rfl⟩ := List.length_eq_one_iff.mp (args_length (n := 1) harity)
      exact lPop_undone h hfull hreply hok
  | rPop =>
      obtain ⟨first, rfl⟩ := List.length_eq_one_iff.mp (args_length (n := 1) harity)
      exact rPop_undone h hfull hreply hok
  | rPopLPush =>
      obtain ⟨source, dest, rfl⟩ := List.length_eq_two.mp (args_length (n := 2) harity)
      exact rPopLPush_undone h hfull hreply hok
  | lSet =>
      obtain ⟨first, rawIndex, val, rfl⟩ := List.length_eq_three.mp (args_length (n := 3) harity)
      exact lSet_undone h hfull hreply hok

/-- When a list command is answered without an error, the lines that its undo function found
before it restore all that the database held. -/
theorem list_commands_undone (h : Live now w) (hfull : Full w.data) {line : CmdLine}
    (hline : ∃ name args c, line = name :: args ∧ cmdTable (toLower (text name)) = some c)
    (hreply : value (execWithLock now line) w = some reply) (hok : isErrorReply reply = false) :
    ∃ lines, Runs (getUndoLogs now line) w lines w ∧ ∃ t,
      Runs (execUndo now lines) (final (execWithLock now line) w) ⟨⟩ t ∧ t.data = w.data := by
  obtain ⟨name, args, c, rfl, hc⟩ := hline
  have hundo : getUndoLogs (ε := ε) now (name :: args) = c.undo now args := by
    rw [getUndoLogs]
    simp only [hc]
  cases harity : validateArity c.arity (name :: args) with
  | false =>
      rw [execWithLock] at hreply
      simp only [hc, harity] at hreply
      cases hreply
      exact absurd hok (by simp [isErrorReply, Reply.toBytes, bytes])
  | true =>
      rw [execWithLock_line hc harity] at hreply ⊢
      obtain ⟨lines, hrun, ⟨⟩, t, hlines, hdata, -⟩ := executor_undone h hfull c harity hreply hok
      exact ⟨lines, hundo ▸ hrun, t, hlines, hdata⟩

def oneList : World Unit := ⟨(∅ : Dict (Entity Unit)).insert (bytes "a") (.list [some (bytes "x")]), ∅, []⟩

theorem list_commands_undone_oneList :
    ∃ lines, Runs (getUndoLogs 0 (cmdLine "RPOPLPUSH" [bytes "a", bytes "b"])) oneList lines oneList ∧ ∃ t,
      Runs (execUndo 0 lines) (final (execWithLock 0 (cmdLine "RPOPLPUSH" [bytes "a", bytes "b"])) oneList)
        ⟨⟩ t ∧ t.data = oneList.data := by
  have hreply : value (execWithLock 0 (cmdLine "RPOPLPUSH" [bytes "a", bytes "b"])) oneList =
      some (.bulk (some (bytes "x"))) := rfl
  refine list_commands_undone (fun key => ?_) (fun key l hl => ?_) ⟨_, _, .rPopLPush, rfl, by decide⟩ hreply
    (by decide)
  · rfl
  · by_cases hkey : key = bytes "a"
    · subst hkey
      rw [oneList, Finmap.lookup_insert] at hl
      cases hl
      simp
    · rw [oneList, Finmap.lookup_insert_of_ne _ hkey, Finmap.lookup_empty] at hl
      cases hl

end

end Traitor.Sequences
