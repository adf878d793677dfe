import Ccask.Index.Chains
import Ccask.Index.LastWrite
import Ccask.Model.Uthash
import Mathlib.Data.List.Perm.Lattice
import Mathlib.Data.Nat.Bitwise

/-!
# The hash table is an index in the order of insertion

Whatever the hash function is, the elements in application order are a list that finds an element by its
key, replaces it in place and appends a new one. The buckets hold the same elements, each in the bucket of
its hash value, before and after every expansion.
-/

namespace Ccask.Audit.Uthash

open Ccask.Model Ccask.Model.Uthash Ccask.Index

section Memory

variable {β : Type} {mem : Memory β}

theorem store_eq_update {p : Nat} {c : Cell β} (h : mem p = some c) (f : Cell β → Cell β) :
    store mem p f = some (Function.update mem p (some (f c))) := by
  simp only [store, h, Option.bind_eq_bind, Option.bind_some]

theorem isSome_setNext {a : Nat} (h : (mem a).isSome) (p q : Option Nat) : (setNext mem p q a).isSome := by
  by_cases hp : p = some a
  · rw [hp, setNext, Function.update_self, Option.isSome_map]
    exact h
  · rw [setNext_of_ne hp]
    exact h

/-- Storing the pointer to the previous cell through a pointer that is NULL or leads to a cell. -/
theorem storeUnlessNull_previous {p : Option Nat} (h : ∀ a, p = some a → (mem a).isSome)
    (q : Option Nat) :
    storeUnlessNull mem p (fun c => { c with previous := q }) = some (setPrevious mem p q) := by
  cases p with
  | none => rfl
  | some a =>
      obtain ⟨c, hc⟩ := Option.isSome_iff_exists.mp (h a rfl)
      rw [storeUnlessNull, store_eq_update hc, setPrevious, hc]
      rfl

theorem storeUnlessNull_next {p : Option Nat} (h : ∀ a, p = some a → (mem a).isSome)
    (q : Option Nat) :
    storeUnlessNull mem p (fun c => { c with next := q }) = some (setNext mem p q) := by
  cases p with
  | none => rfl
  | some a =>
      obtain ⟨c, hc⟩ := Option.isSome_iff_exists.mp (h a rfl)
      rw [storeUnlessNull, store_eq_update hc, setNext, hc]
      rfl

theorem hashToBkt_lt (hashv : UInt32) {numBkts : UInt32} (h : 0 < numBkts.toNat) :
    hashToBkt hashv numBkts < numBkts.toNat := by
  have hone : (1 : UInt32) ≤ numBkts := by
    rw [UInt32.le_iff_toNat_le]
    exact h
  have hsub : (numBkts - 1).toNat = numBkts.toNat - 1 := UInt32.toNat_sub_of_le _ _ hone
  have hand : hashToBkt hashv numBkts ≤ (numBkts - 1).toNat := by
    rw [hashToBkt, UInt32.toNat_and]
    exact Nat.and_le_right
  omega

end Memory

section Expand

variable {handles : Memory UInt32} {tbl : Table} {m done : List (Nat × UInt32)} {numBkts : UInt32}
  {e : Expansion} {ch : Nat → List (Nat × UInt32)}

/-- The first handle of each bucket. -/
def headAt (buckets : List Bucket) (i : Nat) : Option Nat := buckets[i]?.bind Bucket.hhHead

theorem headAt_set {buckets : List Bucket} {i : Nat} (hi : i < buckets.length) (b : Bucket) :
    headAt (buckets.set i b) = Function.update (headAt buckets) i b.hhHead := by
  funext j
  rw [headAt, List.getElem?_set, Function.update_apply]
  by_cases hj : j = i
  · rw [if_pos hj.symm, if_pos hj, if_pos (hj ▸ hi)]
    rfl
  · rw [if_neg (Ne.symm hj), if_neg hj]
    rfl

/-- The buckets hold the handles `m`, each where its hash value says, and know how many. -/
structure Buckets (handles : Memory UInt32) (buckets : List Bucket) (numBkts : UInt32)
    (m : List (Nat × UInt32)) : Prop where
  length : buckets.length = numBkts.toNat
  chained : Chained handles (fun hashv => hashToBkt hashv numBkts) (headAt buckets) m
  counts : ∀ i b, buckets[i]? = some b →
    b.count = UInt32.ofNat (m.filter fun x => hashToBkt x.2 numBkts = i).length

theorem Buckets.perm {buckets : List Bucket} {m' : List (Nat × UInt32)}
    (h : Buckets handles buckets numBkts m) (hm : m.Perm m') : Buckets handles buckets numBkts m' := by
  refine ⟨h.length, h.chained.perm hm, fun i b hb => ?_⟩
  rw [h.counts i b hb, (hm.filter _).length_eq]

/-- New buckets hold nothing. -/
theorem buckets_new (handles : Memory UInt32) {n : Nat} (hn : n = numBkts.toNat) :
    Buckets handles (List.replicate n ⟨none, 0, 0⟩) numBkts [] := by
  refine ⟨by rw [List.length_replicate, hn], ?_, fun i b hb => ?_⟩
  · have hheads : headAt (List.replicate n ⟨none, 0, 0⟩) = fun _ => none := by
      funext i
      rw [headAt, List.getElem?_replicate]
      split
      · rfl
      · rfl
    rw [hheads]
    exact Chained.nil _ _
  · rw [List.getElem?_replicate] at hb
    split at hb
    · obtain rfl := Option.some.inj hb
      rfl
    · cases hb

theorem Buckets.bucket {buckets : List Bucket} (h : Buckets handles buckets numBkts m)
    (hpos : 0 < numBkts.toNat) (hashv : UInt32) : ∃ b, buckets[hashToBkt hashv numBkts]? = some b := by
  have hlt := hashToBkt_lt hashv hpos
  rw [← h.length] at hlt
  exact ⟨_, List.getElem?_eq_getElem hlt⟩

theorem Buckets.head_mem {buckets : List Bucket} (h : Buckets handles buckets numBkts m) {i : Nat}
    {b : Bucket} (hb : buckets[i]? = some b) {a : Nat} (ha : b.hhHead = some a) :
    a ∈ m.map Prod.fst := by
  obtain ⟨c, -, hfirst, hc⟩ := h.chained.chain i
  rw [headAt, hb, Option.bind_some, ha] at hfirst
  obtain ⟨x, hx, rfl, -⟩ := @addr_of_mem_chain _ (fun hashv => hashToBkt hashv numBkts) m c i hc a
    (mem_of_first hfirst.symm)
  exact List.mem_map_of_mem hx

/-- Another handle in front of a bucket. -/
theorem Buckets.push {buckets : List Bucket} (h : Buckets handles buckets numBkts m) {a : Nat}
    (ha : a ∉ m.map Prod.fst) {hashv : UInt32} {b b' : Bucket}
    (hb : buckets[hashToBkt hashv numBkts]? = some b) (hhead : b'.hhHead = some a)
    (hcount : b'.count = b.count + 1) :
    Buckets (setPrevious (Function.update handles a (some ⟨hashv, b.hhHead, none⟩)) b.hhHead (some a))
      (buckets.set (hashToBkt hashv numBkts) b') numBkts ((a, hashv) :: m) := by
  have hlt := (List.getElem?_eq_some_iff.mp hb).1
  have hfront : headAt buckets (hashToBkt hashv numBkts) = b.hhHead := by
    rw [headAt, hb]
    rfl
  have hpush := h.chained.push ha hashv
  rw [hfront] at hpush
  refine ⟨by rw [List.length_set]; exact h.length, ?_, fun i c hc => ?_⟩
  · rw [headAt_set hlt, hhead]
    exact hpush
  · rw [List.getElem?_set] at hc
    by_cases hi : hashToBkt hashv numBkts = i
    · rw [if_pos hi, if_pos hlt] at hc
      obtain rfl := Option.some.inj hc
      rw [hcount, h.counts _ b hb, List.filter_cons_of_pos (by simpa using hi), List.length_cons, ← hi,
        UInt32.ofNat_add]
      rfl
    · rw [if_neg hi] at hc
      rw [h.counts i c hc, List.filter_cons_of_neg (by simpa using hi)]

/-- One handle moves to its new bucket. -/
theorem moveItem_moves (ideal : UInt32) (h : Buckets e.handles e.newBuckets numBkts done) (hpos : 0 < numBkts.toNat)
    {x : Nat × UInt32} (hx : x.1 ∉ done.map Prod.fst) {next previous : Option Nat}
    (hcell : e.handles x.1 = some ⟨x.2, next, previous⟩) :
    ∃ e', moveItem numBkts ideal x.1 e = some e' ∧
      Buckets e'.handles e'.newBuckets numBkts (x :: done) ∧
      ∀ a, a ∉ (x :: done).map Prod.fst → e'.handles a = e.handles a := by
  obtain ⟨b, hb⟩ := h.bucket hpos x.2
  have hne : ∀ a, b.hhHead = some a → a ≠ x.1 := by
    rintro a ha rfl
    exact hx (h.head_mem hb ha)
  have hsome : ∀ a, b.hhHead = some a →
      (Function.update e.handles x.1 (some ⟨x.2, b.hhHead, none⟩) a).isSome := by
    intro a ha
    rw [Function.update_of_ne (hne a ha)]
    obtain ⟨y, hy, rfl⟩ := List.mem_map.mp (h.head_mem hb ha)
    obtain ⟨n, p, hy⟩ := h.chained.cell hy
    rw [hy]
    rfl
  have hstore := storeUnlessNull_previous hsome (some x.1)
  obtain ⟨e', hrun, hhandles, b', hbuckets, hhead, hcount⟩ : ∃ e', moveItem numBkts ideal x.1 e = some e' ∧
      e'.handles = setPrevious (Function.update e.handles x.1 (some ⟨x.2, b.hhHead, none⟩)) b.hhHead
        (some x.1) ∧
      ∃ b', e'.newBuckets = e.newBuckets.set (hashToBkt x.2 numBkts) b' ∧ b'.hhHead = some x.1 ∧
        b'.count = b.count + 1 := by
    simp only [moveItem, hcell, hb, store_eq_update hcell, hstore, Option.bind_eq_bind, Option.bind_some]
    exact ⟨_, rfl, rfl, _, rfl, rfl, rfl⟩
  refine ⟨e', hrun, ?_, fun a ha => ?_⟩
  · rw [hhandles, hbuckets]
    exact h.push hx hb hhead hcount
  · rw [List.map_cons, List.mem_cons, not_or] at ha
    rw [hhandles, setPrevious_of_ne, Function.update_of_ne ha.1]
    intro hhead
    exact ha.2 (h.head_mem hb hhead)

/-- All handles of a chain move, one after another. -/
theorem moveChain_moves (ideal : UInt32) {n : Nat} {before : Option Nat} {c : List (Nat × UInt32)}
    (h : Buckets e.handles e.newBuckets numBkts done) (hpos : 0 < numBkts.toNat)
    (hseg : Segment e.handles before c none) (hnodup : (c.map Prod.fst).Nodup)
    (hdone : ∀ a ∈ c.map Prod.fst, a ∉ done.map Prod.fst) (hn : c.length < n) :
    ∃ e', moveChain numBkts ideal n (first c none) e = some e' ∧
      Buckets e'.handles e'.newBuckets numBkts (c.reverse ++ done) ∧
      ∀ a, a ∉ c.map Prod.fst → a ∉ done.map Prod.fst → e'.handles a = e.handles a := by
  induction c generalizing e done n before with
  | nil =>
      obtain ⟨n, rfl⟩ : ∃ k, n = k + 1 := ⟨n - 1, by simp at hn; omega⟩
      exact ⟨e, rfl, h, fun _ _ _ => rfl⟩
  | cons x c ih =>
      obtain ⟨n, rfl⟩ : ∃ k, n = k + 1 := ⟨n - 1, by simp at hn; omega⟩
      obtain ⟨hx, hc⟩ := hseg
      rw [List.map_cons, List.nodup_cons] at hnodup
      obtain ⟨e₁, hmove, h₁, hframe⟩ := moveItem_moves ideal h hpos
        (hdone x.1 List.mem_cons_self) hx
      have hdone₁ : ∀ a ∈ c.map Prod.fst, a ∉ (x :: done).map Prod.fst := by
        intro a ha
        rw [List.map_cons, List.mem_cons, not_or]
        refine ⟨?_, hdone a (List.mem_cons_of_mem _ ha)⟩
        rintro rfl
        exact hnodup.1 ha
      have hseg₁ : Segment e₁.handles (some x.1) c none :=
        hc.congr fun y hy => hframe y.1 (hdone₁ y.1 (List.mem_map_of_mem hy))
      obtain ⟨e₂, hmoves, h₂, hframe₂⟩ := ih h₁ hseg₁ hnodup.2 hdone₁ (by simpa using hn)
      refine ⟨e₂, ?_, ?_, ?_⟩
      · simp only [first_cons, moveChain, hx, hmove, Option.bind_eq_bind, Option.bind_some]
        exact hmoves
      · rw [List.reverse_cons, List.append_assoc]
        exact h₂
      · intro a ha hd
        rw [List.map_cons, List.mem_cons, not_or] at ha
        have hcons : a ∉ (x :: done).map Prod.fst := by
          rw [List.map_cons, List.mem_cons, not_or]
          exact ⟨ha.1, hd⟩
        rw [hframe₂ a ha.2 hcons, hframe a hcons]

/-- The chains of the old buckets, from bucket `k` on. -/
theorem moveChains_moves (ideal : UInt32) {fuel : Nat} (hpos : 0 < numBkts.toNat)
    (hnodup : ∀ i, ((ch i).map Prod.fst).Nodup)
    (hdisj : ∀ i j, i ≠ j → ∀ a ∈ (ch i).map Prod.fst, a ∉ (ch j).map Prod.fst)
    (hfuel : ∀ i, (ch i).length < fuel) (bs : List Bucket) (k : Nat)
    (h : Buckets e.handles e.newBuckets numBkts done)
    (hsegs : ∀ i b, bs[i]? = some b → Segment e.handles none (ch (k + i)) none ∧
      b.hhHead = first (ch (k + i)) none)
    (hdone : ∀ i, k ≤ i → ∀ a ∈ (ch i).map Prod.fst, a ∉ done.map Prod.fst) :
    ∃ e' done', bs.foldlM (fun e b => moveChain numBkts ideal fuel b.hhHead e) e = some e' ∧
      Buckets e'.handles e'.newBuckets numBkts done' ∧
      done'.Perm ((List.range' k bs.length).flatMap ch ++ done) := by
  induction bs generalizing k e done with
  | nil => exact ⟨e, done, rfl, h, List.Perm.refl _⟩
  | cons b bs ih =>
      obtain ⟨hseg, hhead⟩ := hsegs 0 b rfl
      rw [Nat.add_zero] at hseg hhead
      obtain ⟨e₁, hmove, h₁, hframe⟩ := moveChain_moves ideal h hpos hseg (hnodup k)
        (hdone k (Nat.le_refl k)) (hfuel k)
      have hsegs₁ : ∀ i c, bs[i]? = some c → Segment e₁.handles none (ch (k + 1 + i)) none ∧
          c.hhHead = first (ch (k + 1 + i)) none := by
        intro i c hc
        obtain ⟨hseg', hhead'⟩ := hsegs (i + 1) c hc
        have heq : k + (i + 1) = k + 1 + i := by omega
        rw [heq] at hseg' hhead'
        refine ⟨hseg'.congr fun x hx => ?_, hhead'⟩
        have ha := List.mem_map_of_mem (f := Prod.fst) hx
        exact hframe x.1 (hdisj _ k (by omega) _ ha) (hdone _ (by omega) _ ha)
      have hdone₁ : ∀ i, k + 1 ≤ i → ∀ a ∈ (ch i).map Prod.fst,
          a ∉ ((ch k).reverse ++ done).map Prod.fst := by
        intro i hi a ha
        rw [List.map_append, List.map_reverse, List.mem_append, List.mem_reverse, not_or]
        exact ⟨hdisj i k (by omega) a ha, hdone i (by omega) a ha⟩
      obtain ⟨e₂, done₂, hmoves, h₂, hperm⟩ := ih (k + 1) h₁ hsegs₁ hdone₁
      refine ⟨e₂, done₂, ?_, h₂, hperm.trans ?_⟩
      · rw [List.foldlM_cons, hhead, hmove]
        exact hmoves
      · rw [List.length_cons, List.range'_succ, List.flatMap_cons, ← List.append_assoc]
        refine List.Perm.append_right done ?_
        exact (List.perm_append_comm).trans (List.Perm.append_right _ (List.reverse_perm _))

/-- Every handle is in one of the chains. -/
theorem flatMap_chains {n : Nat} {home : UInt32 → Nat} (hm : (m.map Prod.fst).Nodup)
    (hhome : ∀ x ∈ m, home x.2 < n) (hch : ∀ i, (ch i).Perm (m.filter fun x => home x.2 = i)) :
    ((List.range n).flatMap ch).Perm m := by
  have hnodup : ∀ i, (ch i).Nodup := fun i => (nodup_chain (hch i) hm).of_map
  refine (List.perm_ext_iff_of_nodup ?_ hm.of_map).mpr fun x => ?_
  · refine List.nodup_flatMap.mpr ⟨fun i _ => hnodup i, ?_⟩
    refine List.nodup_range.imp fun {i j} hij => ?_
    intro x hi hj
    exact disjoint_chains hm (hch i) (hch j) hij (List.mem_map_of_mem hi) (List.mem_map_of_mem hj)
  · rw [List.mem_flatMap]
    constructor
    · rintro ⟨i, -, hx⟩
      exact ((mem_chain (hch i)).mp hx).1
    · intro hx
      exact ⟨home x.2, List.mem_range.mpr (hhome x hx), (mem_chain (hch _)).mpr ⟨hx, rfl⟩⟩

/-- The table knows how many buckets there are. -/
structure TwoPow (tbl : Table) : Prop where
  bits : tbl.log2NumBuckets.toNat < 32
  size : tbl.numBuckets.toNat = 2 ^ tbl.log2NumBuckets.toNat

theorem TwoPow.pos (h : TwoPow tbl) : 0 < tbl.numBuckets.toNat := by
  rw [h.size]
  exact Nat.two_pow_pos _

theorem twoPow_make (a : Nat) : TwoPow (hashMakeTable a) :=
  ⟨show (5 : UInt32).toNat < 32 by decide, show (32 : UInt32).toNat = 2 ^ (5 : UInt32).toNat by decide⟩

/-- Twice as many buckets. -/
theorem TwoPow.doubled (h : TwoPow tbl) (hroom : tbl.log2NumBuckets.toNat < 31) :
    (tbl.numBuckets * 2).toNat = tbl.numBuckets.toNat * 2 ∧
      (tbl.log2NumBuckets + 1).toNat = tbl.log2NumBuckets.toNat + 1 := by
  have hpow : 2 ^ tbl.log2NumBuckets.toNat ≤ 2 ^ 30 := Nat.pow_le_pow_right (by decide) (by omega)
  rw [UInt32.toNat_mul, UInt32.toNat_add, h.size]
  have htwo : (2 : UInt32).toNat = 2 := rfl
  have hone : (1 : UInt32).toNat = 1 := rfl
  rw [htwo, hone]
  constructor
  · rw [Nat.mod_eq_of_lt (by omega)]
  · rw [Nat.mod_eq_of_lt (by omega)]

/-- An expansion spreads the same handles over twice as many buckets, unless there are 2^31 already. -/
theorem hashExpandBuckets_spreads {α : Type} {s : Hash α} (htbl : s.tbl = some tbl) (hsized : TwoPow tbl)
    (h : Buckets s.handles tbl.buckets tbl.numBuckets m) (hm : m.length ≤ s.fresh) :
    (tbl.log2NumBuckets.toNat = 31 ∧ hashExpandBuckets s = none) ∨
      ∃ handles' tbl', hashExpandBuckets s = some { s with handles := handles', tbl := some tbl' } ∧
        TwoPow tbl' ∧ Buckets handles' tbl'.buckets tbl'.numBuckets m ∧ tbl'.numItems = tbl.numItems ∧
        tbl'.tail = tbl.tail := by
  have hbits := hsized.bits
  obtain hroom | hfull : tbl.log2NumBuckets.toNat < 31 ∨ tbl.log2NumBuckets.toNat = 31 := by omega
  · obtain ⟨hdouble, hlog⟩ := hsized.doubled hroom
    have hpos := hsized.pos
    have hpos' : 0 < (tbl.numBuckets * 2).toNat := by omega
    have hchained := h.chained
    obtain ⟨home, hhome⟩ : ∃ home, home = fun hashv => hashToBkt hashv tbl.numBuckets := ⟨_, rfl⟩
    rw [← hhome] at hchained
    choose ch hseg hfirst hch using hchained.chain
    have hnodup := hchained.nodup
    have hempty := buckets_new s.handles hdouble.symm
    have hlen : ∀ i, (ch i).length < s.fresh + 1 := by
      intro i
      have hle := (hch i).length_eq.le.trans (List.length_filter_le _ _)
      omega
    have hdisj : ∀ i j, i ≠ j → ∀ a ∈ (ch i).map Prod.fst, a ∉ (ch j).map Prod.fst :=
      fun i j hij _ ha => disjoint_chains hnodup (hch i) (hch j) hij ha
    generalize hideal : (tbl.numItems >>> (tbl.log2NumBuckets + 1)) +
      (if tbl.numItems &&& (tbl.numBuckets * 2 - 1) ≠ 0 then (1 : UInt32) else 0) = ideal
    obtain ⟨e, done, hrun, hdone, hperm⟩ := moveChains_moves ideal
      (e := ⟨s.handles, List.replicate (tbl.numBuckets.toNat * 2) ⟨none, 0, 0⟩, 0⟩) hpos'
      (fun i => nodup_chain (hch i) hnodup) hdisj hlen tbl.buckets 0 hempty
      (fun i b hb => by
        rw [Nat.zero_add, ← hfirst, headAt, hb]
        exact ⟨hseg i, rfl⟩)
      (fun i _ a _ ha => by cases ha)
    rw [List.append_nil, ← List.range_eq_range', h.length] at hperm
    have hall : ((List.range tbl.numBuckets.toNat).flatMap ch).Perm m :=
      flatMap_chains hnodup (fun x _ => by rw [hhome]; exact hashToBkt_lt x.2 hpos) hch
    obtain ⟨tbl', hexpand, hbuckets, hnum, hlog', hitems, htail⟩ : ∃ tbl', hashExpandBuckets s =
        some { s with handles := e.handles, tbl := some tbl' } ∧ tbl'.buckets = e.newBuckets ∧
        tbl'.numBuckets = tbl.numBuckets * 2 ∧ tbl'.log2NumBuckets = tbl.log2NumBuckets + 1 ∧
        tbl'.numItems = tbl.numItems ∧ tbl'.tail = tbl.tail := by
      simp only [hashExpandBuckets, htbl, Option.bind_eq_bind, Option.bind_some]
      rw [if_neg (by omega), hideal, hrun]
      exact ⟨_, rfl, rfl, rfl, rfl, rfl, rfl⟩
    refine .inr ⟨e.handles, tbl', hexpand, ⟨?_, ?_⟩, ?_, hitems, htail⟩
    · rw [hlog', hlog]
      omega
    · rw [hnum, hlog', hdouble, hlog, hsized.size, Nat.pow_succ]
    · rw [hbuckets, hnum]
      exact hdone.perm (hperm.trans hall)
  · refine .inl ⟨hfull, ?_⟩
    simp only [hashExpandBuckets, htbl, Option.bind_eq_bind, Option.bind_some]
    rw [if_pos (by omega)]

end Expand

section Bucket

variable {α : Type} {s : Hash α} {tbl : Table} {m m' : List (Nat × UInt32)}

theorem Buckets.congr {handles handles' : Memory UInt32} {buckets : List Bucket} {numBkts : UInt32}
    (h : Buckets handles buckets numBkts m) (hmem : ∀ x ∈ m, handles' x.1 = handles x.1) :
    Buckets handles' buckets numBkts m :=
  ⟨h.length, h.chained.congr hmem, h.counts⟩

/-- A handle leaves its bucket. -/
theorem Buckets.remove {handles : Memory UInt32} {buckets : List Bucket} {numBkts : UInt32}
    (h : Buckets handles buckets numBkts m) {x : Nat × UInt32} (hm : m.Perm (x :: m'))
    {next previous : Option Nat} (hx : handles x.1 = some ⟨x.2, next, previous⟩) {b : Bucket}
    (hb : buckets[hashToBkt x.2 numBkts]? = some b) (b' : Bucket)
    (hhead : b'.hhHead = if b.hhHead = some x.1 then next else b.hhHead)
    (hcount : b'.count = b.count - 1) :
    Buckets (setPrevious (setNext handles previous next) next previous)
      (buckets.set (hashToBkt x.2 numBkts) b') numBkts m' := by
  have hlt := (List.getElem?_eq_some_iff.mp hb).1
  have hfront : headAt buckets (hashToBkt x.2 numBkts) = b.hhHead := by
    rw [headAt, hb]
    rfl
  have hremove := h.chained.remove hm hx
  refine ⟨by rw [List.length_set]; exact h.length, ?_, fun i c hc => ?_⟩
  · rw [headAt_set hlt, hhead]
    rw [hfront] at hremove
    by_cases hfirst : b.hhHead = some x.1
    · rw [if_pos hfirst] at hremove ⊢
      exact hremove
    · rw [if_neg hfirst] at hremove ⊢
      rw [← hfront, Function.update_eq_self]
      exact hremove
  · have hperm := (hm.filter fun y => hashToBkt y.2 numBkts = i).length_eq
    rw [List.getElem?_set] at hc
    by_cases hi : hashToBkt x.2 numBkts = i
    · rw [if_pos hi, if_pos hlt] at hc
      obtain rfl := Option.some.inj hc
      rw [List.filter_cons_of_pos (by simpa using hi), List.length_cons, ← hi] at hperm
      rw [hcount, h.counts _ b hb, hperm, UInt32.ofNat_add, ← hi]
      exact UInt32.add_sub_cancel _ _
    · rw [if_neg hi] at hc
      rw [List.filter_cons_of_neg (by simpa using hi)] at hperm
      rw [h.counts i c hc, hperm]

/-- Another element enters the table, unless there are 2^31 buckets that would have to double. -/
theorem hashAddToTable_adds {hashv : UInt32} {add : Nat} {next previous : Option Nat}
    (htbl : s.tbl = some tbl) (hsized : TwoPow tbl) (h : Buckets s.handles tbl.buckets tbl.numBuckets m)
    (hadd : add ∉ m.map Prod.fst) (hcell : s.handles add = some ⟨hashv, next, previous⟩)
    (hm : m.length < s.fresh) :
    (tbl.log2NumBuckets.toNat = 31 ∧ hashAddToTable hashv add s = none) ∨
      ∃ handles' tbl', hashAddToTable hashv add s =
          some { s with handles := handles', tbl := some tbl' } ∧ TwoPow tbl' ∧
        Buckets handles' tbl'.buckets tbl'.numBuckets ((add, hashv) :: m) ∧
        tbl'.numItems = tbl.numItems + 1 ∧ tbl'.tail = tbl.tail := by
  obtain ⟨b, hb⟩ := h.bucket hsized.pos hashv
  have hsome : ∀ a, b.hhHead = some a →
      (Function.update s.handles add (some ⟨hashv, b.hhHead, none⟩) a).isSome := by
    intro a ha
    obtain ⟨y, hy, rfl⟩ := List.mem_map.mp (h.head_mem hb ha)
    rw [Function.update_of_ne fun heq : y.1 = add => hadd (heq ▸ List.mem_map_of_mem hy)]
    obtain ⟨n, p, hy⟩ := h.chained.cell hy
    rw [hy]
    rfl
  have hstore := storeUnlessNull_previous hsome (some add)
  have hstore' := store_eq_update hcell fun hh => { hh with next := b.hhHead, previous := none }
  obtain ⟨handles', hhandles⟩ : ∃ handles', handles' = setPrevious
      (Function.update s.handles add (some ⟨hashv, b.hhHead, none⟩)) b.hhHead (some add) := ⟨_, rfl⟩
  obtain ⟨tbl', htbl'⟩ : ∃ tbl' : Table, tbl' = { tbl with
      numItems := tbl.numItems + 1
      buckets := tbl.buckets.set (hashToBkt hashv tbl.numBuckets)
        { b with hhHead := some add, count := b.count + 1 } } := ⟨_, rfl⟩
  have hpush : Buckets handles' tbl'.buckets tbl'.numBuckets ((add, hashv) :: m) := by
    rw [hhandles, htbl']
    exact h.push hadd hb rfl rfl
  have hsized' : TwoPow tbl' := by
    rw [htbl']
    exact ⟨hsized.bits, hsized.size⟩
  have hrun : hashAddToTable hashv add s =
      if (b.expandMult + 1) * hashBktCapacityThresh ≤ b.count + 1 ∧ tbl.noexpand = 0 then
        hashExpandBuckets { s with handles := handles', tbl := some tbl' }
      else some { s with handles := handles', tbl := some tbl' } := by
    simp only [hashAddToTable, hashAddToBkt, htbl, hb, hstore', hstore, Option.bind_eq_bind,
      Option.bind_some, hhandles, htbl']
  split at hrun
  · obtain ⟨hfull, hnone⟩ | ⟨handles'', tbl'', hexpand, hsized'', hbuckets, hitems, htail⟩ :=
      hashExpandBuckets_spreads (s := { s with handles := handles', tbl := some tbl' }) rfl hsized' hpush hm
    · rw [htbl'] at hfull
      exact .inl ⟨hfull, hrun.trans hnone⟩
    · refine .inr ⟨handles'', tbl'', hrun.trans hexpand, hsized'', hbuckets, ?_, ?_⟩
      · rw [hitems, htbl']
      · rw [htail, htbl']
  · exact .inr ⟨handles', tbl', hrun, hsized', hpush, by rw [htbl'], by rw [htbl']⟩

end Bucket

section Represents

variable {α : Type} {key : α → Bytes} {hash : Bytes → UInt32} {s s' : Hash α} {l l₁ l₂ : List (Nat × α)}

/-- The handle of an element knows the hash value of its key. -/
def handleOf (key : α → Bytes) (hash : Bytes → UInt32) (x : Nat × α) : Nat × UInt32 :=
  (x.1, hash (key x.2))

theorem fst_handles (l : List (Nat × α)) :
    (l.map (handleOf key hash)).map Prod.fst = l.map Prod.fst := by
  rw [List.map_map]
  rfl

/-- The table holds the handles `m`, the last of them at its tail. -/
structure Tabled (handles : Memory UInt32) (tbl : Table) (m : List (Nat × UInt32)) (tail : Option Nat) :
    Prop where
  sized : TwoPow tbl
  buckets : Buckets handles tbl.buckets tbl.numBuckets m
  items : tbl.numItems = UInt32.ofNat m.length
  tail : tail = some tbl.tail

/-- The elements in application order, and nothing else is allocated. -/
structure Ordered (key : α → Bytes) (elements : Memory α) (head : Option Nat) (fresh : Nat)
    (l : List (Nat × α)) : Prop where
  segment : Segment elements none l none
  head : head = first l none
  nodup : (l.map Prod.fst).Nodup
  keys : (l.map fun x => key x.2).Nodup
  fresh : ∀ x ∈ l, x.1 < fresh
  only : ∀ a, a ∉ l.map Prod.fst → elements a = none

/-- The hash holds the elements of `l` in this order. -/
structure Represents (key : α → Bytes) (hash : Bytes → UInt32) (s : Hash α) (l : List (Nat × α)) : Prop
    extends Ordered key s.elements s.head s.fresh l where
  table : l ≠ [] → ∃ tbl, s.tbl = some tbl ∧ Tabled s.handles tbl (l.map (handleOf key hash)) (last none l)
  bare : l = [] → s.tbl = none

theorem Represents.empty (key : α → Bytes) (hash : Bytes → UInt32) :
    Represents key hash (Hash.empty α) [] where
  segment := trivial
  head := rfl
  nodup := List.nodup_nil
  keys := List.nodup_nil
  fresh := fun x hx => by cases hx
  only := fun a _ => rfl
  table := fun h => absurd rfl h
  bare := fun _ => rfl

theorem Ordered.fresh_addr {elements : Memory α} {head : Option Nat} {fresh : Nat}
    (h : Ordered key elements head fresh l) {a : Nat} (ha : a ∈ l.map Prod.fst) : a < fresh := by
  obtain ⟨x, hx, rfl⟩ := List.mem_map.mp ha
  exact h.fresh x hx

/-- Not more elements than were allocated. -/
theorem Ordered.length_le {elements : Memory α} {head : Option Nat} {fresh : Nat}
    (h : Ordered key elements head fresh l) : l.length ≤ fresh := by
  have hsub : l.map Prod.fst ⊆ List.range fresh :=
    fun a ha => List.mem_range.mpr (h.fresh_addr ha)
  have hle := (h.nodup.subperm hsub).length_le
  rwa [List.length_map, List.length_range] at hle

/-- The search in a bucket misses the key, or hits the element with it. -/
theorem hashFindInBkt_chain (h : Represents key hash s l) (k : Bytes) {c : List (Nat × UInt32)}
    {before : Option Nat} (hseg : Segment s.handles before c none)
    (hc : ∀ y ∈ c, ∃ x ∈ l, y = handleOf key hash x) {n : Nat} (hn : c.length < n) :
    (hashFindInBkt key s k (hash k) n (first c none) = some none ∧
      ∀ x ∈ l, handleOf key hash x ∈ c → key x.2 ≠ k) ∨
    ∃ x ∈ l, hashFindInBkt key s k (hash k) n (first c none) = some (some x.1) ∧ key x.2 = k := by
  induction c generalizing n before with
  | nil =>
      obtain ⟨n, rfl⟩ : ∃ i, n = i + 1 := ⟨n - 1, by simp at hn; omega⟩
      exact .inl ⟨rfl, fun _ _ hx => by cases hx⟩
  | cons y c ih =>
      obtain ⟨n, rfl⟩ : ∃ i, n = i + 1 := ⟨n - 1, by simp at hn; omega⟩
      obtain ⟨hy, hseg⟩ := hseg
      obtain ⟨x, hx, rfl⟩ := hc y List.mem_cons_self
      obtain ⟨next, previous, hel⟩ := h.segment.cell hx
      have hstep : hashFindInBkt key s k (hash k) (n + 1) (first (handleOf key hash x :: c) none) =
          if key x.2 = k then some (some x.1) else hashFindInBkt key s k (hash k) n (first c none) := by
        rw [first_cons, hashFindInBkt, hy]
        simp only [handleOf, hel, Option.bind_eq_bind, Option.bind_some]
        by_cases hk : key x.2 = k
        · rw [if_pos hk, if_pos (by rw [hk]; exact ⟨rfl, rfl, rfl⟩)]
        · rw [if_neg hk, if_neg (fun hand => hk hand.2.2)]
      rw [hstep]
      by_cases hk : key x.2 = k
      · rw [if_pos hk]
        exact .inr ⟨x, hx, rfl, hk⟩
      · rw [if_neg hk]
        obtain ⟨hmiss, hne⟩ | hhit := ih hseg (fun y hy => hc y (List.mem_cons_of_mem _ hy))
          (by simpa using hn)
        · refine .inl ⟨hmiss, fun z hz hzc => ?_⟩
          obtain heq | hzc := List.mem_cons.mp hzc
          · have haddr : z.1 = x.1 := (Prod.mk.injEq .. ▸ heq : _ ∧ _).1
            rw [List.inj_on_of_nodup_map h.nodup hz hx haddr]
            exact hk
          · exact hne z hz hzc
        · exact .inr hhit

/-- The hash finds the element that the list has for a key. -/
theorem hashFind_gets (h : Represents key hash s l) (k : Bytes) :
    hashFind key hash k s = some ((Index.get (fun x => key x.2) k l).map Prod.fst) := by
  cases l with
  | nil =>
      rw [hashFind, h.head]
      rfl
  | cons y l =>
      obtain ⟨tbl, htbl, htabled⟩ := h.table (List.cons_ne_nil y l)
      obtain ⟨b, hb⟩ := htabled.buckets.bucket htabled.sized.pos (hash k)
      obtain ⟨c, hseg, hfirst, hc⟩ := htabled.buckets.chained.chain (hashToBkt (hash k) tbl.numBuckets)
      have hhead : b.hhHead = first c none := by
        rw [← hfirst, headAt, hb]
        rfl
      have hin : ∀ z ∈ c, ∃ x ∈ y :: l, z = handleOf key hash x := by
        intro z hz
        obtain ⟨x, hx, rfl⟩ := List.mem_map.mp (List.mem_of_mem_filter (hc.mem_iff.mp hz))
        exact ⟨x, hx, rfl⟩
      have hlen : c.length < s.fresh + 1 := by
        have hle := hc.length_eq.le.trans (List.length_filter_le _ _)
        rw [List.length_map] at hle
        have hfresh := h.length_le
        omega
      have hrun : hashFind key hash k s =
          hashFindInBkt key s k (hash k) (s.fresh + 1) (first c none) := by
        simp only [hashFind, h.head, first_cons, htbl, hb, hhead, Option.bind_eq_bind, Option.bind_some]
      rw [hrun]
      obtain ⟨hmiss, hne⟩ | ⟨x, hx, hhit, hk⟩ := hashFindInBkt_chain h k hseg hin hlen
      · rw [hmiss, Index.get_eq_none.mpr]
        · rfl
        · intro hmem
          obtain ⟨x, hx, hk⟩ := List.mem_map.mp hmem
          refine hne x hx (hc.mem_iff.mpr (List.mem_filter.mpr ⟨List.mem_map_of_mem hx, ?_⟩)) hk
          have hhash : hash (key x.2) = hash k := congrArg hash hk
          simp only [handleOf, hhash, decide_true]
      · rw [hhit, ← hk, Index.get_of_mem h.keys hx]
        rfl

/-- Another element at the end. -/
theorem Ordered.append {elements : Memory α} {head : Option Nat} {fresh : Nat}
    (h : Ordered key elements head fresh l) {v : α} (hv : key v ∉ l.map fun x => key x.2) :
    Ordered key (setNext (Function.update elements fresh (some ⟨v, none, last none l⟩)) (last none l)
      (some fresh)) (first (l ++ [(fresh, v)]) none) (fresh + 1) (l ++ [(fresh, v)]) := by
  have hfresh : fresh ∉ l.map Prod.fst := fun ha => absurd (h.fresh_addr ha) (Nat.lt_irrefl _)
  have hseg := h.segment
  rw [← List.append_nil l] at hseg
  have hinsert := Segment.insert (v := v) hseg (by rw [List.append_nil]; exact h.nodup)
    (by rw [List.append_nil]; exact hfresh)
  refine ⟨hinsert, rfl, ?_, ?_, fun x hx => ?_, fun a ha => ?_⟩
  · rw [List.map_append, List.nodup_append]
    refine ⟨h.nodup, List.nodup_singleton _, fun a ha b hb => ?_⟩
    rw [List.mem_singleton.mp hb]
    exact Nat.ne_of_lt (h.fresh_addr ha)
  · rw [List.map_append, List.nodup_append]
    refine ⟨h.keys, List.nodup_singleton _, fun a ha b hb => ?_⟩
    rw [List.mem_singleton.mp hb]
    rintro rfl
    exact hv ha
  · obtain hx | hx := List.mem_append.mp hx
    · have hlt := h.fresh x hx
      omega
    · rw [List.mem_singleton.mp hx]
      exact Nat.lt_succ_self _
  · rw [List.map_append, List.mem_append, not_or] at ha
    have hne : a ≠ fresh := fun heq => ha.2 (by rw [heq]; exact List.mem_singleton_self _)
    rw [setNext_of_ne fun hlast => ha.1 (mem_of_last hlast), Function.update_of_ne hne]
    exact h.only a ha.1

/-- An element that is last in the order enters the table, unless that is full. -/
theorem hashAddToTable_represents {tbl : Table} {a : Nat} {v : α} {next previous : Option Nat}
    (h : Ordered key s.elements s.head s.fresh (l ++ [(a, v)])) (htbl : s.tbl = some tbl)
    (hsized : TwoPow tbl) (hbuckets : Buckets s.handles tbl.buckets tbl.numBuckets (l.map (handleOf key hash)))
    (hcell : s.handles a = some ⟨hash (key v), next, previous⟩)
    (hitems : tbl.numItems = UInt32.ofNat l.length) (htail : tbl.tail = a) :
    (tbl.log2NumBuckets.toNat = 31 ∧ hashAddToTable (hash (key v)) a s = none) ∨
      ∃ s', hashAddToTable (hash (key v)) a s = some s' ∧ Represents key hash s' (l ++ [(a, v)]) := by
  have hnodup := h.nodup
  rw [List.map_append, List.nodup_append] at hnodup
  have hnot : a ∉ (l.map (handleOf key hash)).map Prod.fst := by
    rw [fst_handles]
    intro ha
    exact hnodup.2.2 a ha a (List.mem_singleton_self _) rfl
  have hlen : (l.map (handleOf key hash)).length < s.fresh := by
    have hle := h.length_le
    rw [List.length_append, List.length_singleton] at hle
    rw [List.length_map]
    omega
  obtain hfull | ⟨handles', tbl', hrun, hsized', hbuckets', hitems', htail'⟩ :=
    hashAddToTable_adds htbl hsized hbuckets hnot hcell hlen
  · exact .inl hfull
  · refine .inr ⟨_, hrun, h, fun _ => ⟨tbl', rfl, hsized', ?_, ?_, ?_⟩, fun hnil => absurd hnil (by simp)⟩
    · refine hbuckets'.perm ?_
      rw [List.map_append]
      exact (List.perm_append_singleton _ _).symm
    · rw [hitems', hitems, List.length_map, List.length_append, UInt32.ofNat_add]
      rfl
    · rw [last_append, htail', htail]
      rfl

/-- An element gets another value under the same key. -/
theorem Represents.replace {x : Nat × α} (h : Represents key hash s (l₁ ++ x :: l₂)) {v : α}
    (hv : key v = key x.2) {next previous : Option Nat} (hcell : s.elements x.1 = some ⟨x.2, next, previous⟩) :
    Represents key hash { s with elements := Function.update s.elements x.1 (some ⟨v, next, previous⟩) }
      (l₁ ++ (x.1, v) :: l₂) := by
  have hseg := h.segment.setValue (a := x.1) (v := x.2) h.nodup v
  rw [hcell] at hseg
  have haddrs : (l₁ ++ (x.1, v) :: l₂).map Prod.fst = (l₁ ++ x :: l₂).map Prod.fst := by
    rw [List.map_append, List.map_append, List.map_cons, List.map_cons]
  have hhandles : (l₁ ++ (x.1, v) :: l₂).map (handleOf key hash) = (l₁ ++ x :: l₂).map (handleOf key hash) := by
    rw [List.map_append, List.map_append, List.map_cons, List.map_cons, handleOf, hv]
    rfl
  refine ⟨⟨hseg, ?_, ?_, ?_, fun y hy => ?_, fun a ha => ?_⟩, fun _ => ?_, fun hnil => absurd hnil (by simp)⟩
  · rw [h.head]
    cases l₁ with
    | nil => rfl
    | cons y l₁ => rfl
  · rw [haddrs]
    exact h.nodup
  · have hkeys := h.keys
    rw [List.map_append, List.map_cons] at hkeys ⊢
    rw [hv]
    exact hkeys
  · refine h.fresh_addr ?_
    rw [← haddrs]
    exact List.mem_map_of_mem hy
  · rw [haddrs] at ha
    have hne : a ≠ x.1 := fun heq => ha (by rw [heq]; simp)
    exact (Function.update_of_ne hne ..).trans (h.only a ha)
  · rw [hhandles, last_append, last_cons]
    have htable := h.table (by simp)
    rw [last_append, last_cons] at htable
    exact htable

/-- What `malloc` gives for a new element. -/
def allocated (s : Hash α) (v : α) : Hash α :=
  { s with
    elements := Function.update s.elements s.fresh (some ⟨v, none, none⟩)
    handles := Function.update s.handles s.fresh (some ⟨0, none, none⟩)
    fresh := s.fresh + 1 }

/-- The new element is linked behind the others, and the table knows it as its tail. -/
theorem hashLink_appends (h : Represents key hash s l) {v : α} (hv : key v ∉ l.map fun x => key x.2)
    (hashv : UInt32) :
    ∃ s' tbl, hashLink s.fresh { allocated s v with
        handles := Function.update s.handles s.fresh (some ⟨hashv, none, none⟩) } = some s' ∧
      Ordered key s'.elements s'.head s'.fresh (l ++ [(s.fresh, v)]) ∧
      s'.handles = Function.update s.handles s.fresh (some ⟨hashv, none, none⟩) ∧ s'.tbl = some tbl ∧
      Tabled s'.handles tbl (l.map (handleOf key hash)) (some s.fresh) ∧
      (tbl.log2NumBuckets.toNat = 31 → ∃ tbl₀, s.tbl = some tbl₀ ∧ tbl₀.log2NumBuckets.toNat = 31) := by
  have hfresh : s.fresh ∉ l.map Prod.fst := fun ha => absurd (h.fresh_addr ha) (Nat.lt_irrefl _)
  have happend := h.append hv
  have hcell : (allocated s v).elements s.fresh = some ⟨v, none, none⟩ := Function.update_self ..
  cases l with
  | nil =>
      have hhead : s.head = none := h.head
      have hstore := store_eq_update hcell fun el => { el with next := none, previous := none }
      rw [allocated, Function.update_idem] at hstore
      refine ⟨{ s with
        elements := Function.update s.elements s.fresh (some ⟨v, none, none⟩)
        handles := Function.update s.handles s.fresh (some ⟨hashv, none, none⟩)
        fresh := s.fresh + 1, head := some s.fresh, tbl := some (hashMakeTable s.fresh) },
        hashMakeTable s.fresh, ?_, happend, rfl, rfl, ⟨twoPow_make s.fresh, ?_, ?_, rfl⟩, ?_⟩
      · simp only [hashLink, allocated, hhead, hstore, Option.bind_eq_bind, Option.bind_some]
      · exact buckets_new _ (show 32 = (32 : UInt32).toNat by decide)
      · exact show (0 : UInt32) = UInt32.ofNat 0 by decide
      · intro hfull
        exact absurd hfull (show (5 : UInt32).toNat ≠ 31 by decide)
  | cons y l =>
      have hhead : s.head = some y.1 := h.head
      obtain ⟨tbl, htbl, htabled⟩ := h.table (List.cons_ne_nil y l)
      have htail : last none (y :: l) = some tbl.tail := htabled.tail
      have hne : tbl.tail ≠ s.fresh := fun heq => hfresh (mem_of_last (heq ▸ htail))
      have hstore := store_eq_update hcell fun el => { el with next := none, previous := some tbl.tail }
      rw [allocated, Function.update_idem] at hstore
      obtain ⟨x, hx, hxtail⟩ := List.mem_map.mp (mem_of_last htail)
      obtain ⟨next, previous, hxcell⟩ := h.segment.cell hx
      rw [hxtail] at hxcell
      have hstore' := @storeUnlessNull_next _
        (Function.update s.elements s.fresh (some ⟨v, none, some tbl.tail⟩)) (some tbl.tail)
        (fun a ha => by
          rw [← Option.some.inj ha, Function.update_of_ne hne, hxcell]
          rfl) (some s.fresh)
      rw [storeUnlessNull] at hstore'
      rw [htail] at happend
      refine ⟨{ s with
        elements := setNext (Function.update s.elements s.fresh (some ⟨v, none, some tbl.tail⟩))
          (some tbl.tail) (some s.fresh)
        handles := Function.update s.handles s.fresh (some ⟨hashv, none, none⟩)
        fresh := s.fresh + 1, head := some y.1, tbl := some { tbl with tail := s.fresh } },
        { tbl with tail := s.fresh }, ?_, happend, rfl, rfl,
        ⟨⟨htabled.sized.bits, htabled.sized.size⟩, ?_, htabled.items, rfl⟩, fun hfull => ⟨tbl, htbl, hfull⟩⟩
      · simp only [hashLink, hashAppendList, allocated, hhead, htbl, hstore, hstore', Option.bind_eq_bind,
          Option.bind_some]
      · refine htabled.buckets.congr fun z hz => Function.update_of_ne ?_ ..
        intro heq
        refine hfresh ?_
        rw [← @fst_handles _ key hash, ← heq]
        exact List.mem_map_of_mem hz

/-- A new element comes last, unless the table is full. -/
theorem hashAddKeyptr_appends (h : Represents key hash s l) {v : α}
    (hv : key v ∉ l.map fun x => key x.2) :
    ((∃ tbl, s.tbl = some tbl ∧ tbl.log2NumBuckets.toNat = 31) ∧
      hashAddKeyptr hash (key v) s.fresh (allocated s v) = none) ∨
    ∃ s', hashAddKeyptr hash (key v) s.fresh (allocated s v) = some s' ∧
      Represents key hash s' (l ++ [(s.fresh, v)]) := by
  have hstore := @store_eq_update _ (allocated s v).handles s.fresh ⟨0, none, none⟩
    (Function.update_self ..) fun hh => { hh with value := hash (key v) }
  rw [allocated, Function.update_idem] at hstore
  obtain ⟨s₁, tbl, hlink, hordered, hhandles, htbl, htabled, hfull⟩ := hashLink_appends h hv (hash (key v))
  have hrun : hashAddKeyptr hash (key v) s.fresh (allocated s v) =
      hashAddToTable (hash (key v)) s.fresh s₁ := by
    rw [allocated] at hlink
    simp only [hashAddKeyptr, allocated, hstore, hlink, Option.bind_eq_bind, Option.bind_some]
  have hcell : s₁.handles s.fresh = some ⟨hash (key v), none, none⟩ := by
    rw [hhandles]
    exact Function.update_self ..
  have hitems := htabled.items
  rw [List.length_map] at hitems
  rw [hrun]
  obtain ⟨hbits, hnone⟩ | hsome := hashAddToTable_represents hordered htbl htabled.sized htabled.buckets
    hcell hitems (Option.some.inj htabled.tail).symm
  · exact .inl ⟨hfull hbits, hnone⟩
  · exact .inr hsome

end Represents

section Delete

variable {α : Type} {key : α → Bytes} {hash : Bytes → UInt32} {s : Hash α} {l₁ l₂ : List (Nat × α)}
  {x : Nat × α}

/-- An element is taken out and freed. -/
theorem Ordered.remove {elements : Memory α} {head : Option Nat} {fresh : Nat}
    (h : Ordered key elements head fresh (l₁ ++ x :: l₂)) :
    Ordered key (Function.update (setPrevious (setNext elements (last none l₁) (first l₂ none))
      (first l₂ none) (last none l₁)) x.1 none) (first (l₁ ++ l₂) none) fresh (l₁ ++ l₂) := by
  have hperm : (l₁ ++ x :: l₂).Perm (x :: (l₁ ++ l₂)) := List.perm_middle
  have hnodup := (hperm.map Prod.fst).nodup_iff.mp h.nodup
  have hkeys := (hperm.map fun y => key y.2).nodup_iff.mp h.keys
  rw [List.map_cons, List.nodup_cons] at hnodup hkeys
  refine ⟨(h.segment.remove h.nodup).update hnodup.1 _, rfl, hnodup.2, hkeys.2, fun y hy => ?_, fun a ha => ?_⟩
  · exact h.fresh y (hperm.mem_iff.mpr (List.mem_cons_of_mem _ hy))
  · by_cases hax : a = x.1
    · rw [hax]
      exact Function.update_self ..
    · rw [List.map_append, List.mem_append, not_or] at ha
      rw [Function.update_of_ne hax, setPrevious_of_ne fun hfirst => ha.2 (mem_of_first hfirst),
        setNext_of_ne fun hlast => ha.1 (mem_of_last hlast)]
      refine h.only a fun hmem => ?_
      rw [(hperm.map Prod.fst).mem_iff, List.map_cons, List.mem_cons, List.map_append,
        List.mem_append] at hmem
      obtain heq | hmem | hmem := hmem
      · exact hax heq
      · exact ha.1 hmem
      · exact ha.2 hmem

/-- A handle leaves the table. -/
theorem hashDelInBkt_removes {m m' : List (Nat × UInt32)} {tbl : Table} {y : Nat × UInt32}
    {tail : Option Nat} (htbl : s.tbl = some tbl) (h : Tabled s.handles tbl m tail) (hm : m.Perm (y :: m')) :
    ∃ handles b, hashDelInBkt (hashToBkt y.2 tbl.numBuckets) y.1 s = some { s with
        handles, tbl := some { tbl with buckets := b } } ∧
      Buckets handles b tbl.numBuckets m' := by
  obtain ⟨b, hb⟩ := h.buckets.bucket h.sized.pos y.2
  obtain ⟨next, previous, hy, hnext, hprevious⟩ :=
    h.buckets.chained.neighbours (hm.mem_iff.mpr List.mem_cons_self)
  have hstore := storeUnlessNull_next hprevious next
  have hstore' := @storeUnlessNull_previous _ (setNext s.handles previous next) _
    (fun a ha => isSome_setNext (hnext a ha) previous next) previous
  refine ⟨_, _, ?_, h.buckets.remove hm hy hb { b with
    count := b.count - 1, hhHead := if b.hhHead = some y.1 then next else b.hhHead } rfl rfl⟩
  simp only [hashDelInBkt, htbl, hb, hy, hstore, hstore', Option.bind_eq_bind, Option.bind_some]

theorem free_eq {p : Nat} {c : Cell α} (h : s.elements p = some c) : free p s = some { s with
    elements := Function.update s.elements p none, handles := Function.update s.handles p none } := by
  rw [free, h]
  rfl

theorem last_eq_none {l : List (Nat × α)} : last none l = none ↔ l = [] := by
  induction l using List.reverseRecOn with
  | nil => exact ⟨fun _ => rfl, fun _ => rfl⟩
  | append_singleton l x =>
      rw [last_append, last_cons, last_nil]
      simp

theorem first_eq_none {l : List (Nat × α)} : first l none = none ↔ l = [] := by
  cases l with
  | nil => exact ⟨fun _ => rfl, fun _ => rfl⟩
  | cons x l => simp

/-- Where the table finds its tail after an element that is not the only one has gone. -/
theorem tail_of_removed {tail : Nat} (hnodup : ((l₁ ++ x :: l₂).map Prod.fst).Nodup)
    (htail : last none (l₁ ++ x :: l₂) = some tail) (hmore : ¬ (l₁ = [] ∧ l₂ = [])) :
    ∃ t, (if tail = x.1 then last none l₁ else some tail) = some t ∧ last none (l₁ ++ l₂) = some t := by
  have hnot := (List.nodup_cons.mp ((List.perm_middle.map Prod.fst).nodup_iff.mp hnodup)).1
  cases l₂ with
  | nil =>
      have hne : last none l₁ ≠ none := fun h => hmore ⟨last_eq_none.mp h, rfl⟩
      obtain ⟨t, ht⟩ := Option.ne_none_iff_exists'.mp hne
      rw [last_append, last_cons, last_nil] at htail
      rw [List.append_nil, if_pos (Option.some.inj htail).symm]
      exact ⟨t, ht, ht⟩
  | cons y l₂ =>
      have hlast : last none (l₁ ++ y :: l₂) = some tail := by
        rw [last_append, last_cons] at htail ⊢
        exact htail
      have hne : tail ≠ x.1 := fun heq => hnot (heq ▸ mem_of_last hlast)
      rw [if_neg hne]
      exact ⟨tail, rfl, hlast⟩

/-- An element is deleted and freed, wherever it stands; with the last one the table goes. -/
theorem hashDelete_removes (h : Represents key hash s (l₁ ++ x :: l₂)) :
    ∃ s₁ s', hashDelete x.1 s = some s₁ ∧ free x.1 s₁ = some s' ∧ Represents key hash s' (l₁ ++ l₂) := by
  have hremove := h.toOrdered.remove
  have hcell : s.elements x.1 = some ⟨x.2, first l₂ none, last none l₁⟩ :=
    (segment_append.mp h.segment).2.1
  obtain ⟨tbl, htbl, htabled⟩ := h.table (by simp)
  have hperm : ((l₁ ++ x :: l₂).map (handleOf key hash)).Perm
      (handleOf key hash x :: (l₁ ++ l₂).map (handleOf key hash)) := List.perm_middle.map (handleOf key hash)
  obtain ⟨n, p, hhandle⟩ := htabled.buckets.chained.cell (hperm.mem_iff.mpr List.mem_cons_self)
  by_cases hlast : l₁ = [] ∧ l₂ = []
  · obtain ⟨rfl, rfl⟩ := hlast
    refine ⟨{ s with head := none, tbl := none }, { s with
      elements := Function.update s.elements x.1 none, handles := Function.update s.handles x.1 none
      head := none, tbl := none }, ?_, ?_, hremove, fun hne => absurd rfl hne, fun _ => rfl⟩
    · simp only [hashDelete, hcell, handleOf] at hhandle ⊢
      rw [hhandle]
      rfl
    · exact free_eq hcell
  · obtain ⟨t, htail, hlast'⟩ := tail_of_removed h.nodup htabled.tail hlast
    obtain ⟨hnext, hprevious⟩ := h.segment.neighbours
    have hstore := storeUnlessNull_next hprevious (first l₂ none)
    have hstore' := @storeUnlessNull_previous _ (setNext s.elements (last none l₁) (first l₂ none)) _
      (fun a ha => isSome_setNext (hnext a ha) _ _) (last none l₁)
    obtain ⟨elements, helements⟩ : ∃ elements, elements = setPrevious (setNext s.elements (last none l₁)
      (first l₂ none)) (first l₂ none) (last none l₁) := ⟨_, rfl⟩
    rw [← helements] at hstore' hremove
    have hnot := (List.nodup_cons.mp ((List.perm_middle.map Prod.fst).nodup_iff.mp h.nodup)).1
    have hkept : elements x.1 = some ⟨x.2, first l₂ none, last none l₁⟩ := by
      rw [List.map_append, List.mem_append, not_or] at hnot
      rw [helements, setPrevious_of_ne fun hfirst => hnot.2 (mem_of_first hfirst),
        setNext_of_ne fun hlast => hnot.1 (mem_of_last hlast), hcell]
    have htabled' : Tabled s.handles { tbl with tail := t } ((l₁ ++ x :: l₂).map (handleOf key hash))
        (some t) := ⟨⟨htabled.sized.bits, htabled.sized.size⟩, htabled.buckets, htabled.items, rfl⟩
    obtain ⟨handles, b, hdel, hbuckets⟩ := hashDelInBkt_removes
      (s := { s with elements, head := first (l₁ ++ l₂) none, tbl := some { tbl with tail := t } })
      rfl htabled' hperm
    have hhead : (if last none l₁ = none then first l₂ none else s.head) = first (l₁ ++ l₂) none := by
      rw [h.head]
      cases l₁ with
      | nil => rfl
      | cons y l₁ =>
          rw [if_neg fun hnone => List.cons_ne_nil _ _ (last_eq_none.mp hnone)]
          rfl
    refine ⟨{ s with
        elements, handles, head := first (l₁ ++ l₂) none
        tbl := some { tbl with buckets := b, tail := t, numItems := tbl.numItems - 1 } }, { s with
        elements := Function.update elements x.1 none, handles := Function.update handles x.1 none
        head := first (l₁ ++ l₂) none
        tbl := some { tbl with buckets := b, tail := t, numItems := tbl.numItems - 1 } }, ?_, ?_, hremove,
      fun _ => ⟨_, rfl, ⟨htabled.sized.bits, htabled.sized.size⟩, ?_, ?_, hlast'⟩,
      fun hnil => absurd (List.append_eq_nil_iff.mp hnil) hlast⟩
    · have hsome : ¬ (last none l₁ = none ∧ first l₂ none = none) := fun hnone =>
        hlast ⟨last_eq_none.mp hnone.1, first_eq_none.mp hnone.2⟩
      rw [handleOf] at hhandle
      simp only [handleOf] at hdel
      simp only [hashDelete, hcell, hhandle, if_neg hsome, htbl, htail, hstore, hstore', hhead, hdel,
        Option.bind_eq_bind, Option.bind_some]
    · exact free_eq hkept
    · refine hbuckets.congr fun z hz => Function.update_of_ne ?_ ..
      intro heq
      refine hnot ?_
      rw [← heq, ← @fst_handles _ key hash]
      exact List.mem_map_of_mem hz
    · have hlen := hperm.length_eq
      rw [List.length_cons] at hlen
      show tbl.numItems - 1 = _
      rw [htabled.items, hlen, UInt32.ofNat_add]
      exact UInt32.add_sub_cancel _ _

end Delete

section Keydir

variable {hash : Bytes → UInt32} {s : Hash KeydirRecord} {table : List KeydirRecord}
  {l : List (Nat × KeydirRecord)}

/-- The hash holds the entries of `table`, in this order. -/
def Holding (hash : Bytes → UInt32) (s : Hash KeydirRecord) (table : List KeydirRecord) : Prop :=
  ∃ l, Represents KeydirRecord.key hash s l ∧ l.map Prod.snd = table

/-- No more buckets can be made. -/
def Full (s : Hash KeydirRecord) : Prop := ∃ tbl, s.tbl = some tbl ∧ tbl.log2NumBuckets.toNat = 31

theorem find_spec (h : Represents KeydirRecord.key hash s l) (k : Bytes) :
    (Uthash.ccaskKeydirFind hash k s = some none ∧ k ∉ (l.map Prod.snd).map KeydirRecord.key) ∨
      ∃ l₁ x l₂, l = l₁ ++ x :: l₂ ∧ x.2.key = k ∧ Uthash.ccaskKeydirFind hash k s = some (some x.1) := by
  have hrun := hashFind_gets h k
  rw [Uthash.ccaskKeydirFind, hrun]
  cases hget : Index.get (fun x : Nat × KeydirRecord => x.2.key) k l with
  | none =>
      refine .inl ⟨rfl, ?_⟩
      rw [List.map_map]
      exact Index.get_eq_none.mp hget
  | some x =>
      obtain ⟨l₁, l₂, hl⟩ := List.append_of_mem (Index.mem_of_get hget)
      have hkey : x.2.key = k := @Index.key_of_get _ _ _ (fun x : Nat × KeydirRecord => x.2.key) _ _ _ hget
      exact .inr ⟨l₁, x, l₂, hl, hkey, rfl⟩

theorem keys_before {x : Nat × KeydirRecord} {l₁ l₂ : List (Nat × KeydirRecord)}
    (h : Represents KeydirRecord.key hash s (l₁ ++ x :: l₂)) :
    ∀ b ∈ l₁.map Prod.snd, b.key ≠ x.2.key := by
  intro b hb heq
  obtain ⟨y, hy, rfl⟩ := List.mem_map.mp hb
  have hkeys := h.keys
  rw [List.map_append, List.nodup_append] at hkeys
  exact hkeys.2.2 _ (List.mem_map_of_mem hy) _ List.mem_cons_self heq

/-- The entry that the pointer leads to. -/
theorem find_entry (h : Represents KeydirRecord.key hash s l) (k : Bytes) :
    (Uthash.ccaskKeydirFind hash k s = some none ∧ Index.get KeydirRecord.key k (l.map Prod.snd) = none) ∨
      ∃ p c, Uthash.ccaskKeydirFind hash k s = some (some p) ∧ s.elements p = some c ∧
        Index.get KeydirRecord.key k (l.map Prod.snd) = some c.value := by
  obtain ⟨hnone, hk⟩ | ⟨l₁, x, l₂, rfl, rfl, hsome⟩ := find_spec h k
  · exact .inl ⟨hnone, Index.get_eq_none.mpr hk⟩
  · obtain ⟨next, previous, hcell⟩ := h.segment.cell (x := x) (by simp)
    refine .inr ⟨x.1, _, hsome, hcell, Index.get_of_mem ?_ ?_⟩
    · rw [List.map_map]
      exact h.keys
    · exact List.mem_map_of_mem (by simp)

/-- An upsert writes the entry, unless it is a new one and the table is full. -/
theorem upsert_puts (h : Holding hash s table) (r : KeydirRecord) :
    (Full s ∧ r.key ∉ table.map KeydirRecord.key ∧ Uthash.ccaskKeydirUpsert hash r s = none) ∨
      ∃ s', Uthash.ccaskKeydirUpsert hash r s = some s' ∧
        Holding hash s' (Index.put KeydirRecord.key r table) := by
  obtain ⟨l, h, rfl⟩ := h
  obtain ⟨hnone, hk⟩ | ⟨l₁, x, l₂, rfl, hkey, hsome⟩ := find_spec h r.key
  · have hv : r.key ∉ l.map fun x => x.2.key := by
      rw [List.map_map] at hk
      exact hk
    have hrun : Uthash.ccaskKeydirUpsert hash r s = hashAddKeyptr hash r.key s.fresh (allocated s r) := by
      rw [Uthash.ccaskKeydirUpsert, hnone]
      rfl
    rw [hrun]
    obtain ⟨hfull, hnone⟩ | ⟨s', hadd, h'⟩ := hashAddKeyptr_appends h hv
    · exact .inl ⟨hfull, hk, hnone⟩
    · refine .inr ⟨s', hadd, _, h', ?_⟩
      rw [List.map_append, Index.put_of_not_mem hk]
      rfl
  · obtain ⟨next, previous, hcell⟩ := h.segment.cell (x := x) (by simp)
    have hstore := store_eq_update hcell
      fun el => { el with value := { r with key := el.value.key } }
    have hvalue : ({ r with key := x.2.key } : KeydirRecord) = r := by rw [hkey]
    refine .inr ⟨_, ?_, _, h.replace hkey.symm hcell, ?_⟩
    · rw [Uthash.ccaskKeydirUpsert, hsome]
      simp only [hstore, hvalue, Option.bind_eq_bind, Option.bind_some]
    · rw [List.map_append, List.map_append, List.map_cons, List.map_cons, Index.put_append hkey]
      intro hmem
      obtain ⟨b, hb, heq⟩ := List.mem_map.mp hmem
      exact keys_before h b hb (heq.trans hkey.symm)

/-- A delete frees the entry and says whether there was one. -/
theorem delete_removes (h : Holding hash s table) (k : Bytes) :
    ∃ s', Uthash.ccaskKeydirDelete hash k s =
        some ((Index.get KeydirRecord.key k table).isSome, s') ∧
      Holding hash s' (table.eraseP fun r => r.key = k) := by
  obtain ⟨l, h, rfl⟩ := h
  obtain ⟨hnone, hk⟩ | ⟨l₁, x, l₂, rfl, rfl, hsome⟩ := find_spec h k
  · refine ⟨s, ?_, l, h, ?_⟩
    · rw [Uthash.ccaskKeydirDelete, hnone, Index.get_eq_none.mpr hk]
      rfl
    · rw [List.eraseP_of_forall_not]
      intro r hr heq
      exact hk (List.mem_map.mpr ⟨r, hr, by simpa using heq⟩)
  · obtain ⟨s₁, s', hdelete, hfree, h'⟩ := hashDelete_removes h
    refine ⟨s', ?_, l₁ ++ l₂, h', ?_⟩
    · have hget : Index.get KeydirRecord.key x.2.key ((l₁ ++ x :: l₂).map Prod.snd) = some x.2 :=
        Index.get_of_mem (by rw [List.map_map]; exact h.keys) (List.mem_map_of_mem (by simp))
      rw [Uthash.ccaskKeydirDelete, hsome, hget]
      simp only [hdelete, hfree, Option.bind_eq_bind, Option.bind_some, Option.isSome_some]
    · rw [List.map_append, List.map_append, List.map_cons, List.eraseP_append_right, List.eraseP_cons_of_pos]
      · simp
      · intro b hb
        simpa using keys_before h b hb

/-- An iterator gives out all entries, the oldest first. -/
theorem iterRecords_all {before : Option Nat} (hseg : Segment s.elements before l none) {n : Nat}
    (hn : l.length < n) : iterRecords s n (first l none) = some (l.map Prod.snd) := by
  induction l generalizing before n with
  | nil =>
      obtain ⟨n, rfl⟩ : ∃ i, n = i + 1 := ⟨n - 1, by simp at hn; omega⟩
      rfl
  | cons x l ih =>
      obtain ⟨n, rfl⟩ : ∃ i, n = i + 1 := ⟨n - 1, by simp at hn; omega⟩
      obtain ⟨hx, hseg⟩ := hseg
      have hrest := ih hseg (by simpa using hn)
      simp only [first_cons, iterRecords, ccaskKeydirRecordIterNext, hx, hrest, Option.bind_eq_bind,
        Option.bind_some, List.map_cons]

theorem records_all (h : Holding hash s table) : ccaskKeydirRecords s = some table := by
  obtain ⟨l, h, rfl⟩ := h
  rw [ccaskKeydirRecords, h.head]
  exact iterRecords_all h.segment (Nat.lt_succ_of_le h.length_le)

theorem nextOf_first (h : Represents KeydirRecord.key hash s l) :
    nextOf s (first l none) = some (first l.tail none) := by
  cases l with
  | nil => rfl
  | cons x l =>
      obtain ⟨hx, -⟩ := h.segment
      simp only [first_cons, nextOf, hx, Option.bind_eq_bind, Option.bind_some, List.tail_cons]

/-- The loop frees the entries one after another and takes the next one before. -/
theorem shutdownEntries_frees (h : Represents KeydirRecord.key hash s l) {n : Nat} (hn : l.length < n) :
    ∃ s', shutdownEntries n (first l none) (first l.tail none) s = some s' ∧
      Represents KeydirRecord.key hash s' [] := by
  induction l generalizing s n with
  | nil =>
      obtain ⟨n, rfl⟩ : ∃ i, n = i + 1 := ⟨n - 1, by simp at hn; omega⟩
      exact ⟨s, rfl, h⟩
  | cons x l ih =>
      obtain ⟨n, rfl⟩ : ∃ i, n = i + 1 := ⟨n - 1, by simp at hn; omega⟩
      obtain ⟨s₁, s₂, hdelete, hfree, h₂⟩ := @hashDelete_removes _ _ _ _ [] _ _ h
      rw [List.nil_append] at h₂
      obtain ⟨s', hrest, h'⟩ := ih h₂ (by simpa using hn)
      refine ⟨s', ?_, h'⟩
      simp only [first_cons, shutdownEntries, hdelete, hfree, List.tail_cons, nextOf_first h₂,
        Option.bind_eq_bind, Option.bind_some]
      exact hrest

/-- A shutdown frees every entry once, and nothing stays allocated. -/
theorem shutdown_frees (h : Holding hash s table) :
    ∃ s', Uthash.ccaskKeydirShutdown s = some s' ∧ s'.head = none ∧ s'.tbl = none ∧
      s'.elements = fun _ => none := by
  obtain ⟨l, h, -⟩ := h
  obtain ⟨s', hrun, h'⟩ := shutdownEntries_frees h (Nat.lt_succ_of_le h.length_le)
  refine ⟨{ s' with head := none }, ?_, rfl, h'.bare rfl, ?_⟩
  · rw [Uthash.ccaskKeydirShutdown, h.head, nextOf_first h]
    simp only [Option.bind_eq_bind, Option.bind_some, hrun]
  · funext a
    exact h'.only a List.not_mem_nil

end Keydir

section Run

variable {hash : Bytes → UInt32} {s : Hash KeydirRecord} {table : List KeydirRecord}

/-- The calls on the key directory. -/
inductive Call where
  | find (k : Bytes)
  | upsert (record : KeydirRecord)
  | delete (k : Bytes)
  | iterate

inductive Answer where
  | entry (entry : Option KeydirRecord)
  | upserted
  | deleted (found : Bool)
  | records (records : List KeydirRecord)
  deriving DecidableEq

/-- A call on the hash table; who finds an entry reads it through the pointer. -/
def Call.onHash (hash : Bytes → UInt32) (s : Hash KeydirRecord) : Call → Option (Answer × Hash KeydirRecord)
  | find k => do
    match ← Uthash.ccaskKeydirFind hash k s with
    | none => some (.entry none, s)
    | some entry =>
      let el ← s.elements entry
      some (.entry (some el.value), s)
  | upsert record => do
    let s ← Uthash.ccaskKeydirUpsert hash record s
    some (.upserted, s)
  | delete k => do
    let (found, s) ← Uthash.ccaskKeydirDelete hash k s
    some (.deleted found, s)
  | iterate => do
    let records ← ccaskKeydirRecords s
    some (.records records, s)

/-- The same call on a list of entries. -/
def Call.onIndex (table : List KeydirRecord) : Call → Answer × List KeydirRecord
  | find k => (.entry (Index.get KeydirRecord.key k table), table)
  | upsert record => (.upserted, Index.put KeydirRecord.key record table)
  | delete k => (.deleted (Index.get KeydirRecord.key k table).isSome, table.eraseP fun r => r.key = k)
  | iterate => (.records table, table)

def runHash (hash : Bytes → UInt32) : List Call → Hash KeydirRecord → Option (List Answer × Hash KeydirRecord)
  | [], s => some ([], s)
  | c :: calls, s => do
    let (answer, s) ← c.onHash hash s
    let (answers, s) ← runHash hash calls s
    some (answer :: answers, s)

def runIndex : List Call → List KeydirRecord → List Answer × List KeydirRecord
  | [], table => ([], table)
  | c :: calls, table =>
    let (answer, table) := c.onIndex table
    let (answers, table) := runIndex calls table
    (answer :: answers, table)

/-- One call gives the same answer on both. -/
theorem Holding.call (h : Holding hash s table) (c : Call) :
    (∃ r, c = .upsert r ∧ r.key ∉ table.map KeydirRecord.key ∧ Full s ∧ c.onHash hash s = none) ∨
      ∃ s', c.onHash hash s = some ((c.onIndex table).1, s') ∧ Holding hash s' (c.onIndex table).2 := by
  cases c with
  | find k =>
      obtain ⟨l, hl, rfl⟩ := h
      refine .inr ⟨s, ?_, l, hl, rfl⟩
      obtain ⟨hrun, hget⟩ | ⟨p, c, hrun, hcell, hget⟩ := find_entry hl k
      · simp only [Call.onHash, hrun, Call.onIndex, hget, Option.bind_eq_bind, Option.bind_some]
      · simp only [Call.onHash, hrun, hcell, Call.onIndex, hget, Option.bind_eq_bind, Option.bind_some]
  | upsert record =>
      obtain ⟨hfull, hk, hrun⟩ | ⟨s', hrun, h'⟩ := upsert_puts h record
      · refine .inl ⟨record, rfl, hk, hfull, ?_⟩
        rw [Call.onHash, hrun]
        rfl
      · refine .inr ⟨s', ?_, h'⟩
        rw [Call.onHash, hrun]
        rfl
  | delete k =>
      obtain ⟨s', hrun, h'⟩ := delete_removes h k
      refine .inr ⟨s', ?_, h'⟩
      rw [Call.onHash, hrun]
      rfl
  | iterate =>
      refine .inr ⟨s, ?_, h⟩
      rw [Call.onHash, records_all h]
      rfl

/-- Many calls give the same answers, as long as the table can grow. -/
theorem Holding.calls (h : Holding hash s table) (calls : List Call) :
    (∃ s', runHash hash calls s = some ((runIndex calls table).1, s') ∧
      Holding hash s' (runIndex calls table).2) ∨
    ∃ calls₁ r calls₂ s', calls = calls₁ ++ .upsert r :: calls₂ ∧
      runHash hash calls₁ s = some ((runIndex calls₁ table).1, s') ∧ Full s' ∧
      r.key ∉ (runIndex calls₁ table).2.map KeydirRecord.key ∧ Uthash.ccaskKeydirUpsert hash r s' = none := by
  induction calls generalizing s table with
  | nil => exact .inl ⟨s, rfl, h⟩
  | cons c calls ih =>
      obtain ⟨r, rfl, hk, hfull, hnone⟩ | ⟨s₁, hcall, h₁⟩ := h.call c
      · refine .inr ⟨[], r, calls, s, rfl, rfl, hfull, hk, ?_⟩
        rw [Call.onHash] at hnone
        cases hrun : Uthash.ccaskKeydirUpsert hash r s with
        | none => rfl
        | some s' =>
            rw [hrun] at hnone
            cases hnone
      · obtain ⟨s', hrun, h'⟩ | ⟨calls₁, r, calls₂, s', rfl, hrun, hfull, hk, hnone⟩ := ih h₁
        · refine .inl ⟨s', ?_, h'⟩
          simp only [runHash, hcall, hrun, runIndex, Option.bind_eq_bind, Option.bind_some]
        · refine .inr ⟨c :: calls₁, r, calls₂, s', rfl, ?_, hfull, hk, hnone⟩
          simp only [runHash, hcall, hrun, runIndex, Option.bind_eq_bind, Option.bind_some]

/-- Whatever the hash function is, finds, upserts, deletes and iterations on the hash table answer as on a
list in the order of insertion, and a shutdown after them frees every entry and the table. Only a new entry
that would have to double a table of 2^31 buckets has no defined result. -/
theorem keydir_refines_index (hash : Bytes → UInt32) (calls : List Call) :
    (∃ s s', runHash hash calls (Hash.empty KeydirRecord) = some ((runIndex calls []).1, s) ∧
      ccaskKeydirRecords s = some (runIndex calls []).2 ∧ Uthash.ccaskKeydirShutdown s = some s' ∧
      s'.head = none ∧ s'.tbl = none ∧ s'.elements = fun _ => none) ∨
    ∃ calls₁ r calls₂ s, calls = calls₁ ++ .upsert r :: calls₂ ∧
      runHash hash calls₁ (Hash.empty KeydirRecord) = some ((runIndex calls₁ []).1, s) ∧ Full s ∧
      r.key ∉ (runIndex calls₁ []).2.map KeydirRecord.key ∧ Uthash.ccaskKeydirUpsert hash r s = none := by
  have hempty : Holding hash (Hash.empty KeydirRecord) [] := ⟨[], Represents.empty _ hash, rfl⟩
  obtain ⟨s, hrun, h⟩ | hfull := hempty.calls calls
  · obtain ⟨s', hshutdown, hfreed⟩ := shutdown_frees h
    exact .inl ⟨s, s', hrun, records_all h, hshutdown, hfreed⟩
  · exact .inr hfull

example : (runHash hashJen [.upsert ⟨[7], 1, 0, 4, 9⟩, .upsert ⟨[8], 1, 30, 4, 9⟩,
      .upsert ⟨[7], 2, 0, 5, 10⟩, .delete [9], .iterate] (Hash.empty KeydirRecord)).map Prod.fst =
    some [.upserted, .upserted, .upserted, .deleted false,
      .records [⟨[7], 2, 0, 5, 10⟩, ⟨[8], 1, 30, 4, 9⟩]] := by
  decide +kernel

end Run

end Ccask.Audit.Uthash
