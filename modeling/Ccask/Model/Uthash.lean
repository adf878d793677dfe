import Ccask.Index.Linked
import Ccask.Model.World

/-!
# The hash table of the key directory (uthash.h, keydir.c)

The macros of uthash on elements with a hash handle. The handle's pointers in application order stand in
`elements`, its pointers in bucket order and its hash value in `handles`. A result `none` is a run that
follows a pointer to nothing, or whose result C does not define. `malloc` succeeds: uthash ends the
process when it does not.
-/

namespace Ccask.Model.Uthash

open Ccask.Index

/-- `UT_hash_bucket`. -/
structure Bucket where
  hhHead : Option Nat
  count : UInt32
  expandMult : UInt32

/-- `UT_hash_table`. -/
structure Table where
  buckets : List Bucket
  numBuckets : UInt32
  log2NumBuckets : UInt32
  numItems : UInt32
  tail : Nat
  idealChainMaxlen : UInt32
  nonidealItems : UInt32
  ineffExpands : UInt32
  noexpand : UInt32

/-- The head of a hash, the table that its handles lead to, and the memory. `malloc` gives the addresses
from `fresh` on. -/
structure Hash (α : Type) where
  elements : Memory α
  handles : Memory UInt32
  fresh : Nat
  head : Option Nat
  tbl : Option Table

def Hash.empty (α : Type) : Hash α := ⟨fun _ => none, fun _ => none, 0, none, none⟩

/-- Store through a pointer. -/
def store {β : Type} (mem : Memory β) (p : Nat) (f : Cell β → Cell β) : Option (Memory β) := do
  let c ← mem p
  some (Function.update mem p (some (f c)))

/-- Store through a pointer that is not NULL. -/
def storeUnlessNull {β : Type} (mem : Memory β) (p : Option Nat) (f : Cell β → Cell β) :
    Option (Memory β) :=
  match p with
  | none => some mem
  | some a => store mem a f

/-- HASH_TO_BKT. -/
def hashToBkt (hashv numBkts : UInt32) : Nat := (hashv &&& (numBkts - 1)).toNat

section Macros

variable {α : Type} (key : α → Bytes) (hash : Bytes → UInt32)

/-- HASH_FIND_IN_BKT; a chain has no more handles than were allocated. -/
def hashFindInBkt (s : Hash α) (k : Bytes) (hashv : UInt32) : Nat → Option Nat → Option (Option Nat)
  | 0, _ => none
  | _ + 1, none => some none
  | n + 1, some out => do
    let hh ← s.handles out
    let el ← s.elements out
    if hh.value = hashv ∧ (key el.value).length = k.length ∧ key el.value = k then some (some out)
    else hashFindInBkt s k hashv n hh.next

/-- HASH_FIND. -/
def hashFind (k : Bytes) (s : Hash α) : Option (Option Nat) :=
  match s.head with
  | none => some none
  | some _ => do
    let tbl ← s.tbl
    let bucket ← tbl.buckets[hashToBkt (hash k) tbl.numBuckets]?
    hashFindInBkt key s k (hash k) (s.fresh + 1) bucket.hhHead

/-- What the loops of HASH_EXPAND_BUCKETS change. -/
structure Expansion where
  handles : Memory UInt32
  newBuckets : List Bucket
  nonidealItems : UInt32

/-- The body of its inner loop. -/
def moveItem (numBkts idealChainMaxlen : UInt32) (thh : Nat) (e : Expansion) : Option Expansion := do
  let hh ← e.handles thh
  let bkt := hashToBkt hh.value numBkts
  let newbkt ← e.newBuckets[bkt]?
  let count := newbkt.count + 1
  let nonideal := idealChainMaxlen < count
  let handles ← store e.handles thh fun hh => { hh with previous := none, next := newbkt.hhHead }
  let handles ← storeUnlessNull handles newbkt.hhHead fun hh => { hh with previous := some thh }
  some {
    handles
    newBuckets := e.newBuckets.set bkt {
      hhHead := some thh
      count
      expandMult := if nonideal ∧ newbkt.expandMult * idealChainMaxlen < count then newbkt.expandMult + 1
        else newbkt.expandMult }
    nonidealItems := if nonideal then e.nonidealItems + 1 else e.nonidealItems }

/-- Its inner loop: one chain, whose next handle is taken before the handle moves. -/
def moveChain (numBkts idealChainMaxlen : UInt32) : Nat → Option Nat → Expansion → Option Expansion
  | 0, _, _ => none
  | _ + 1, none, e => some e
  | n + 1, some thh, e => do
    let hh ← e.handles thh
    let e ← moveItem numBkts idealChainMaxlen thh e
    moveChain numBkts idealChainMaxlen n hh.next e

/-- HASH_EXPAND_BUCKETS. A shift by 32 has no defined result. -/
def hashExpandBuckets (s : Hash α) : Option (Hash α) := do
  let tbl ← s.tbl
  if 32 ≤ tbl.log2NumBuckets.toNat + 1 then none
  else
    let numBkts := tbl.numBuckets * 2
    let idealChainMaxlen := (tbl.numItems >>> (tbl.log2NumBuckets + 1)) +
      (if tbl.numItems &&& (numBkts - 1) ≠ 0 then 1 else 0)
    let e ← tbl.buckets.foldlM
      (fun e bucket => moveChain numBkts idealChainMaxlen (s.fresh + 1) bucket.hhHead e)
      ⟨s.handles, List.replicate (tbl.numBuckets.toNat * 2) ⟨none, 0, 0⟩, 0⟩
    let ineffExpands := if tbl.numItems >>> 1 < e.nonidealItems then tbl.ineffExpands + 1 else 0
    some { s with
      handles := e.handles
      tbl := some { tbl with
        buckets := e.newBuckets
        numBuckets := numBkts
        log2NumBuckets := tbl.log2NumBuckets + 1
        idealChainMaxlen
        nonidealItems := e.nonidealItems
        ineffExpands
        noexpand := if 1 < ineffExpands then 1 else tbl.noexpand } }

/-- HASH_BKT_CAPACITY_THRESH. -/
def hashBktCapacityThresh : UInt32 := 10

/-- HASH_ADD_TO_BKT. -/
def hashAddToBkt (bkt add : Nat) (s : Hash α) : Option (Hash α) := do
  let tbl ← s.tbl
  let bucket ← tbl.buckets[bkt]?
  let count := bucket.count + 1
  let handles ← store s.handles add fun hh => { hh with next := bucket.hhHead, previous := none }
  let handles ← storeUnlessNull handles bucket.hhHead fun hh => { hh with previous := some add }
  let s := { s with
    handles
    tbl := some { tbl with buckets := tbl.buckets.set bkt { bucket with hhHead := some add, count } } }
  if (bucket.expandMult + 1) * hashBktCapacityThresh ≤ count ∧ tbl.noexpand = 0 then hashExpandBuckets s
  else some s

/-- HASH_ADD_TO_TABLE. -/
def hashAddToTable (hashv : UInt32) (add : Nat) (s : Hash α) : Option (Hash α) := do
  let tbl ← s.tbl
  hashAddToBkt (hashToBkt hashv tbl.numBuckets) add
    { s with tbl := some { tbl with numItems := tbl.numItems + 1 } }

/-- HASH_MAKE_TABLE, with HASH_INITIAL_NUM_BUCKETS buckets. -/
def hashMakeTable (add : Nat) : Table where
  buckets := List.replicate 32 ⟨none, 0, 0⟩
  numBuckets := 32
  log2NumBuckets := 5
  numItems := 0
  tail := add
  idealChainMaxlen := 0
  nonidealItems := 0
  ineffExpands := 0
  noexpand := 0

/-- HASH_APPEND_LIST. -/
def hashAppendList (add : Nat) (s : Hash α) : Option (Hash α) := do
  let tbl ← s.tbl
  let elements ← store s.elements add fun el => { el with next := none, previous := some tbl.tail }
  let elements ← store elements tbl.tail fun el => { el with next := some add }
  some { s with elements, tbl := some { tbl with tail := add } }

/-- How HASH_ADD_KEYPTR links the element into the list; the first one makes the table. -/
def hashLink (add : Nat) (s : Hash α) : Option (Hash α) :=
  match s.head with
  | none => do
    let elements ← store s.elements add fun el => { el with next := none, previous := none }
    some { s with elements, head := some add, tbl := some (hashMakeTable add) }
  | some _ => hashAppendList add s

/-- HASH_ADD_KEYPTR. -/
def hashAddKeyptr (k : Bytes) (add : Nat) (s : Hash α) : Option (Hash α) := do
  let handles ← store s.handles add fun hh => { hh with value := hash k }
  let s ← hashLink add { s with handles }
  hashAddToTable (hash k) add s

/-- HASH_DEL_IN_BKT. -/
def hashDelInBkt (bkt del : Nat) (s : Hash α) : Option (Hash α) := do
  let tbl ← s.tbl
  let bucket ← tbl.buckets[bkt]?
  let hh ← s.handles del
  let handles ← storeUnlessNull s.handles hh.previous fun prev => { prev with next := hh.next }
  let handles ← storeUnlessNull handles hh.next fun next => { next with previous := hh.previous }
  some { s with
    handles
    tbl := some { tbl with buckets := tbl.buckets.set bkt { bucket with
      count := bucket.count - 1
      hhHead := if bucket.hhHead = some del then hh.next else bucket.hhHead } } }

/-- HASH_DELETE. With its last element the table goes. -/
def hashDelete (del : Nat) (s : Hash α) : Option (Hash α) := do
  let el ← s.elements del
  let hh ← s.handles del
  if el.previous = none ∧ el.next = none then some { s with head := none, tbl := none }
  else
    let tbl ← s.tbl
    let tail ← (if tbl.tail = del then el.previous else some tbl.tail)
    let elements ← storeUnlessNull s.elements el.previous fun prev => { prev with next := el.next }
    let elements ← storeUnlessNull elements el.next fun next => { next with previous := el.previous }
    let s ← hashDelInBkt (hashToBkt hh.value tbl.numBuckets) del { s with
      elements
      head := if el.previous = none then el.next else s.head
      tbl := some { tbl with tail } }
    let tbl ← s.tbl
    some { s with tbl := some { tbl with numItems := tbl.numItems - 1 } }

/-- `free` of an element; its memory may not be used again. -/
def free (p : Nat) (s : Hash α) : Option (Hash α) := do
  let _ ← s.elements p
  some { s with
    elements := Function.update s.elements p none
    handles := Function.update s.handles p none }

end Macros

section Jen

/-- HASH_JEN_MIX. -/
def hashJenMix (a b c : UInt32) : UInt32 × UInt32 × UInt32 :=
  let a := (a - b - c) ^^^ (c >>> 13)
  let b := (b - c - a) ^^^ (a <<< 8)
  let c := (c - a - b) ^^^ (b >>> 13)
  let a := (a - b - c) ^^^ (c >>> 12)
  let b := (b - c - a) ^^^ (a <<< 16)
  let c := (c - a - b) ^^^ (b >>> 5)
  let a := (a - b - c) ^^^ (c >>> 3)
  let b := (b - c - a) ^^^ (a <<< 10)
  let c := (c - a - b) ^^^ (b >>> 15)
  (a, b, c)

/-- Four bytes, the first one the lowest; a byte that is not there adds nothing. -/
def le32 (k : Bytes) (i : Nat) : UInt32 :=
  let byte := fun j => (k.getD (i + j) 0).toUInt32
  byte 0 + (byte 1 <<< 8) + (byte 2 <<< 16) + (byte 3 <<< 24)

/-- The rounds of HASH_JEN on twelve bytes each, and what is left of the key. -/
def hashJenRounds : Nat → Bytes → UInt32 × UInt32 × UInt32 → Bytes × UInt32 × UInt32 × UInt32
  | 0, k, state => (k, state)
  | n + 1, k, (i, j, hashv) =>
    if 12 ≤ k.length then
      hashJenRounds n (k.drop 12) (hashJenMix (i + le32 k 0) (j + le32 k 4) (hashv + le32 k 8))
    else (k, i, j, hashv)

/-- HASH_JEN, the HASH_FUNCTION. Of the last bytes the ninth to the eleventh stand one byte higher. -/
def hashJen (k : Bytes) : UInt32 :=
  let (rest, i, j, hashv) := hashJenRounds (k.length / 12 + 1) k (0x9e3779b9, 0x9e3779b9, 0xfeedbeef)
  let hashv := hashv + UInt32.ofNat k.length
  (hashJenMix (i + le32 rest 0) (j + le32 rest 4) (hashv + (le32 rest 8 <<< 8))).2.2

end Jen

section Keydir

variable (hash : Bytes → UInt32)

def ccaskKeydirFind (k : Bytes) (s : Hash KeydirRecord) : Option (Option Nat) :=
  hashFind KeydirRecord.key hash k s

/-- `ccask_keydir_upsert` when its own calls of `malloc` succeed. -/
def ccaskKeydirUpsert (record : KeydirRecord) (s : Hash KeydirRecord) : Option (Hash KeydirRecord) := do
  match ← ccaskKeydirFind hash record.key s with
  | some entry =>
    let elements ← store s.elements entry fun el =>
      { el with value := { record with key := el.value.key } }
    some { s with elements }
  | none =>
    hashAddKeyptr hash record.key s.fresh { s with
      elements := Function.update s.elements s.fresh (some ⟨record, none, none⟩)
      handles := Function.update s.handles s.fresh (some ⟨0, none, none⟩)
      fresh := s.fresh + 1 }

/-- `ccask_keydir_delete`; `false` is CCASK_FAIL. -/
def ccaskKeydirDelete (k : Bytes) (s : Hash KeydirRecord) : Option (Bool × Hash KeydirRecord) := do
  match ← ccaskKeydirFind hash k s with
  | none => some (false, s)
  | some entry =>
    let s ← hashDelete entry s
    let s ← free entry s
    some (true, s)

/-- `el->hh.next` in HASH_ITER, unless `el` is NULL. -/
def nextOf (s : Hash KeydirRecord) : Option Nat → Option (Option Nat)
  | none => some none
  | some el => do
    let el ← s.elements el
    some el.next

/-- The loop of `ccask_keydir_shutdown`; HASH_ITER takes the next entry before the body frees this one. -/
def shutdownEntries : Nat → Option Nat → Option Nat → Hash KeydirRecord → Option (Hash KeydirRecord)
  | 0, _, _, _ => none
  | _ + 1, none, _, s => some s
  | n + 1, some entry, tmp, s => do
    let s ← hashDelete entry s
    let s ← free entry s
    let next ← nextOf s tmp
    shutdownEntries n tmp next s

def ccaskKeydirShutdown (s : Hash KeydirRecord) : Option (Hash KeydirRecord) := do
  let tmp ← nextOf s s.head
  let s ← shutdownEntries (s.fresh + 1) s.head tmp s
  some { s with head := none }

/-- `ccask_keydir_record_iter_next`: the record and where the iterator then stands. -/
def ccaskKeydirRecordIterNext (s : Hash KeydirRecord) :
    Option Nat → Option (Option KeydirRecord × Option Nat)
  | none => some (none, none)
  | some record => do
    let el ← s.elements record
    some (some el.value, el.next)

/-- All records that an iterator gives out. -/
def iterRecords (s : Hash KeydirRecord) : Nat → Option Nat → Option (List KeydirRecord)
  | 0, _ => none
  | n + 1, next => do
    match ← ccaskKeydirRecordIterNext s next with
    | (none, _) => some []
    | (some record, next) =>
      let records ← iterRecords s n next
      some (record :: records)

/-- `ccask_keydir_record_iter` stands at the head. -/
def ccaskKeydirRecords (s : Hash KeydirRecord) : Option (List KeydirRecord) :=
  iterRecords s (s.fresh + 1) s.head

end Keydir

end Ccask.Model.Uthash
