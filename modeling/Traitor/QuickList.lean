import Mathlib.Algebra.GroupWithZero.Nat
import Mathlib.Data.List.Basic
import Mathlib.Tactic.Common

namespace Traitor

variable {α : Type}

structure Page (α : Type) where
  elems : List α
  cap : Nat
deriving DecidableEq

structure QuickList (α : Type) where
  data : List (Page α)
  size : Int
deriving DecidableEq

namespace QuickList

/-- A nil `node` is no element of the page list. -/
structure Iterator where
  node : Option Nat
  offset : Int
deriving DecidableEq

def pageSize : Nat := 1024

def newQuickList : QuickList α := ⟨[], 0⟩

/-- The capacity `append` leaves a slice of `cap` with when `len` elements are
needed. How far it grows is up to the runtime. -/
def growCap (grow : Nat → Nat → Nat) (cap len : Nat) : Nat :=
  if len ≤ cap then cap else grow cap len

section

variable (grow : Nat → Nat → Nat)

/-- The first value of an empty list is put into the new page, and again into the
back page, which is the same one. -/
def add (ql : QuickList α) (val : α) : QuickList α :=
  let data := if ql.data = [] then [⟨[val], pageSize⟩] else ql.data
  match data.getLast? with
  | none => ⟨data, ql.size + 1⟩
  | some back =>
      if back.elems.length = back.cap then ⟨data ++ [⟨[val], pageSize⟩], ql.size + 1⟩
      else
        let page := ⟨back.elems ++ [val], growCap grow back.cap (back.elems.length + 1)⟩
        ⟨data.dropLast ++ [page], ql.size + 1⟩

end

def findFront (index : Int) : List (Page α) → Nat → Int → Option Iterator
  | [], _, _ => none
  | page :: pages, n, pageBeg =>
      if pageBeg + page.elems.length > index then some ⟨some n, index - pageBeg⟩
      else findFront index pages (n + 1) (pageBeg + page.elems.length)

/-- The pages are given from the back, `n` pages in front of the given ones included. -/
def findBack (index : Int) : List (Page α) → Int → Option Iterator
  | [], _ => none
  | page :: pages, pageBeg =>
      if pageBeg - page.elems.length ≤ index then
        some ⟨some pages.length, index - (pageBeg - page.elems.length)⟩
      else findBack index pages (pageBeg - page.elems.length)

/-- None is a panic: an index out of range, or a walk over the last page. -/
def find (ql : QuickList α) (index : Int) : Option Iterator :=
  if index < 0 ∨ ql.size ≤ index then none
  else if index < ql.size.tdiv 2 then findFront index ql.data 0 0
  else findBack index ql.data.reverse ql.size

namespace Iterator

def page (iter : Iterator) (ql : QuickList α) : Option (Page α) := iter.node.bind (ql.data[·]?)

/-- Indexing a page out of its range panics. -/
def get (iter : Iterator) (ql : QuickList α) : Option α :=
  (iter.page ql).bind fun page => if iter.offset < 0 then none else page.elems[iter.offset.toNat]?

def back (ql : QuickList α) : Option Nat :=
  if ql.data = [] then none else some (ql.data.length - 1)

def front (ql : QuickList α) : Option Nat := if ql.data = [] then none else some 0

def next (iter : Iterator) (ql : QuickList α) : Option (Iterator × Bool) :=
  (iter.page ql).map fun page =>
    if iter.offset < page.elems.length - 1 then (⟨iter.node, iter.offset + 1⟩, true)
    else if iter.node = back ql then (⟨iter.node, page.elems.length⟩, false)
    else (⟨iter.node.map (· + 1), 0⟩, true)

def prev (iter : Iterator) (ql : QuickList α) : Option (Iterator × Bool) :=
  if iter.offset > 0 then some (⟨iter.node, iter.offset - 1⟩, true)
  else if iter.node = front ql then some (⟨iter.node, -1⟩, false)
  else
    let node := iter.node.map (· - 1)
    ((⟨node, 0⟩ : Iterator).page ql).map fun page => (⟨node, page.elems.length - 1⟩, true)

def atEnd (iter : Iterator) (ql : QuickList α) : Option Bool :=
  if ql.data = [] then some true
  else if iter.node ≠ back ql then some false
  else (iter.page ql).map fun page => iter.offset = page.elems.length

def atBegin (iter : Iterator) (ql : QuickList α) : Bool :=
  if ql.data = [] then true
  else if iter.node ≠ front ql then false
  else iter.offset = -1

def set (iter : Iterator) (ql : QuickList α) (val : α) : Option (QuickList α) := do
  let n ← iter.node
  let page ← ql.data[n]?
  if 0 ≤ iter.offset ∧ iter.offset < page.elems.length then
    some { ql with data := ql.data.set n { page with elems := page.elems.set iter.offset.toNat val } }
  else none

def remove (iter : Iterator) (ql : QuickList α) : Option (QuickList α × Iterator × α) := do
  let n ← iter.node
  let page ← ql.data[n]?
  let val ← iter.get ql
  let elems := page.elems.eraseIdx iter.offset.toNat
  if elems ≠ [] then
    let iter :=
      if iter.offset = elems.length ∧ iter.node ≠ back ql then ⟨some (n + 1), 0⟩ else iter
    some (⟨ql.data.set n { page with elems := elems }, ql.size - 1⟩, iter, val)
  else if iter.node = back ql then
    some (⟨ql.data.eraseIdx n, ql.size - 1⟩, ⟨none, 0⟩, val)
  else some (⟨ql.data.eraseIdx n, ql.size - 1⟩, ⟨some n, 0⟩, val)

end Iterator

def get (ql : QuickList α) (index : Int) : Option α := (find ql index).bind (·.get ql)

def set (ql : QuickList α) (index : Int) (val : α) : Option (QuickList α) :=
  (find ql index).bind (·.set ql val)

/-- A full page is split into two half pages first. -/
def insert (grow : Nat → Nat → Nat) (ql : QuickList α) (index : Int) (val : α) :
    Option (QuickList α) :=
  if index = ql.size then some (add grow ql val)
  else do
    let iter ← find ql index
    let n ← iter.node
    let page ← ql.data[n]?
    if iter.offset < 0 ∨ page.elems.length < iter.offset then none
    else if page.elems.length < pageSize then
      let page := ⟨page.elems.insertIdx iter.offset.toNat val,
        growCap grow page.cap (page.elems.length + 1)⟩
      some ⟨ql.data.set n page, ql.size + 1⟩
    else
      let half := page.elems.take (pageSize / 2)
      let rest := page.elems.drop (pageSize / 2)
      let restCap := growCap grow 0 rest.length
      let (page, nextPage) :=
        if iter.offset < half.length then
          (⟨half.insertIdx iter.offset.toNat val, growCap grow page.cap (half.length + 1)⟩,
            ⟨rest, restCap⟩)
        else
          ((⟨half, page.cap⟩ : Page α),
            (⟨rest.insertIdx (iter.offset.toNat - pageSize / 2) val,
              growCap grow restCap (rest.length + 1)⟩ : Page α))
      some ⟨ql.data.take n ++ page :: nextPage :: ql.data.drop (n + 1), ql.size + 1⟩

def remove (ql : QuickList α) (index : Int) : Option (QuickList α × α) :=
  (find ql index).bind fun iter => (iter.remove ql).map fun (ql, _, val) => (ql, val)

/-- The list as it is left, and the value: none is the panic on a missing or an
empty last page, which the size has then already been reduced for, and `some none`
the nil of an empty list. -/
def removeLast (ql : QuickList α) : QuickList α × Option (Option α) :=
  if ql.size = 0 then (ql, some none)
  else
    let ql := { ql with size := ql.size - 1 }
    match ql.data.getLast? with
    | none => (ql, none)
    | some last =>
        match last.elems.getLast? with
        | none => (ql, none)
        | some val =>
            if last.elems.length = 1 then ({ ql with data := ql.data.dropLast }, some (some val))
            else
              ({ ql with data := ql.data.dropLast ++ [{ last with elems := last.elems.dropLast }] },
                some (some val))

def total (ql : QuickList α) : Nat := (ql.data.map (·.elems.length)).sum

def passes (ql : QuickList α) : Nat := total ql + ql.data.length + 1

/-- The list as it is left by the loop, and the number of removals: none is a panic. -/
def removeAllLoop (expected : α → Bool) :
    Nat → QuickList α → Iterator → Nat → QuickList α × Option Nat
  | 0, ql, _, _ => (ql, none)
  | fuel + 1, ql, iter, removed =>
      match iter.atEnd ql, iter.get ql with
      | some true, _ => (ql, some removed)
      | none, _ => (ql, none)
      | some false, none => (ql, none)
      | some false, some val =>
          if expected val then
            match iter.remove ql with
            | none => (ql, none)
            | some (ql, iter, _) => removeAllLoop expected fuel ql iter (removed + 1)
          else
            match iter.next ql with
            | none => (ql, none)
            | some (iter, _) => removeAllLoop expected fuel ql iter removed

def removeAllByVal (ql : QuickList α) (expected : α → Bool) : QuickList α × Option Nat :=
  match find ql 0 with
  | none => (ql, none)
  | some iter => removeAllLoop expected (passes ql) ql iter 0

def removeLoop (expected : α → Bool) (count : Int) :
    Nat → QuickList α → Iterator → Nat → QuickList α × Option Nat
  | 0, ql, _, _ => (ql, none)
  | fuel + 1, ql, iter, removed =>
      match iter.atEnd ql, iter.get ql with
      | some true, _ => (ql, some removed)
      | none, _ => (ql, none)
      | some false, none => (ql, none)
      | some false, some val =>
          if expected val then
            match iter.remove ql with
            | none => (ql, none)
            | some (ql, iter, _) =>
                if (removed + 1 : Int) = count then (ql, some (removed + 1))
                else removeLoop expected count fuel ql iter (removed + 1)
          else
            match iter.next ql with
            | none => (ql, none)
            | some (iter, _) => removeLoop expected count fuel ql iter removed

def removeByVal (ql : QuickList α) (expected : α → Bool) (count : Int) :
    QuickList α × Option Nat :=
  if ql.size = 0 then (ql, some 0)
  else match find ql 0 with
    | none => (ql, none)
    | some iter => removeLoop expected count (passes ql) ql iter 0

def reverseRemoveLoop (expected : α → Bool) (count : Int) :
    Nat → QuickList α → Iterator → Nat → QuickList α × Option Nat
  | 0, ql, _, _ => (ql, none)
  | fuel + 1, ql, iter, removed =>
      if iter.atBegin ql then (ql, some removed)
      else match iter.get ql with
        | none => (ql, none)
        | some val =>
            if expected val then
              match iter.remove ql with
              | none => (ql, none)
              | some (ql, iter, _) =>
                  if (removed + 1 : Int) = count then (ql, some (removed + 1))
                  else match iter.prev ql with
                    | none => (ql, none)
                    | some (iter, _) => reverseRemoveLoop expected count fuel ql iter (removed + 1)
            else
              match iter.prev ql with
              | none => (ql, none)
              | some (iter, _) => reverseRemoveLoop expected count fuel ql iter removed

def reverseRemoveByVal (ql : QuickList α) (expected : α → Bool) (count : Int) :
    QuickList α × Option Nat :=
  if ql.size = 0 then (ql, some 0)
  else match find ql (ql.size - 1) with
    | none => (ql, none)
    | some iter => reverseRemoveLoop expected count (passes ql) ql iter 0

def forEachLoop (consumer : Nat → α → Bool) (ql : QuickList α) :
    Nat → Iterator → Nat → Option (List α)
  | 0, _, _ => none
  | fuel + 1, iter, i => do
      let val ← iter.get ql
      if consumer i val then
        let (iter, inBound) ← iter.next ql
        if inBound then (forEachLoop consumer ql fuel iter (i + 1)).map (val :: ·)
        else some [val]
      else some [val]

def forEach (ql : QuickList α) (consumer : Nat → α → Bool) : Option (List α) :=
  if ql.size = 0 then some []
  else (find ql 0).bind fun iter => forEachLoop consumer ql (passes ql) iter 0

def contains (ql : QuickList α) (expected : α → Bool) : Option Bool :=
  (forEach ql (fun _ actual => !expected actual)).map (·.any expected)

def rangeLoop (ql : QuickList α) : Nat → Iterator → Option (List α)
  | 0, _ => some []
  | n + 1, iter => do
      let val ← iter.get ql
      let (iter, _) ← iter.next ql
      (rangeLoop ql n iter).map (val :: ·)

def range (ql : QuickList α) (start stop : Int) : Option (List α) :=
  if start < 0 ∨ ql.size ≤ start then none
  else if stop < start ∨ ql.size < stop then none
  else (find ql start).bind (rangeLoop ql (stop - start).toNat)

end QuickList

end Traitor
