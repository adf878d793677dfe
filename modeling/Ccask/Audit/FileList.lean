import Ccask.Model.FileList
import Ccask.Audit.Restart
import Ccask.Audit.WriteEnds

/-!
# The file list and its pointers

The nodes between head and tail are the list of files that the rest of the model has: every call on the
pointers marches in step with the call on the list. Ids are those that `parse_filename` reads.
-/

namespace Ccask.Audit

open Ccask.Effect Ccask.Index Ccask.Model Ccask.Model.Linked

section Pointers

/-- The nodes from head to tail with their addresses. -/
structure Represents (s : FilesState) (l : List (Nat × CcaskFile)) : Prop where
  head : s.head = first l none
  tail : s.tail = last none l
  segment : Segment s.mem none l none
  nodup : (l.map Prod.fst).Nodup
  below : ∀ a ∈ l.map Prod.fst, a < s.fresh
  table : s.hashTable.Perm (l.map Prod.fst)

variable {s : FilesState} {l l₁ l₂ : List (Nat × CcaskFile)} {x : Nat} {f : CcaskFile} {node : FileNode}

theorem store_eq {a : Nat} (h : s.mem a = some node) (g : FileNode → FileNode) :
    s.store a g = some { s with mem := Function.update s.mem a (some (g node)) } := by
  simp only [FilesState.store, h, Option.bind_eq_bind, Option.bind_some]

theorem Represents.length_le (h : Represents s l) : l.length ≤ s.fresh := by
  have hsub : (l.map Prod.fst).Subperm (List.range s.fresh) :=
    List.subperm_of_subset h.nodup fun a ha => List.mem_range.mpr (h.below a ha)
  simpa using hsub.length_le

/-- The loop stops at the first node that is not newer. -/
theorem skipNewer_eq {mem : Memory CcaskFile} {before : Option Nat} {fileId n : Nat}
    (h : Segment mem before (l₁ ++ l₂) none) (hnewer : ∀ y ∈ l₁, fileId < y.2.fileId)
    (holder : ∀ y ∈ l₂.head?, y.2.fileId < fileId) (hn : l₁.length < n) :
    skipNewer mem fileId n (first (l₁ ++ l₂) none) = some (first l₂ none) := by
  induction l₁ generalizing before n with
  | nil =>
      obtain ⟨n, rfl⟩ : ∃ k, n = k + 1 := ⟨n - 1, by simp at hn; omega⟩
      cases l₂ with
      | nil => rfl
      | cons y l₂ =>
          have hy : y.2.fileId < fileId := holder y rfl
          simp only [List.nil_append, first_cons, skipNewer, h.1, Option.bind_eq_bind, Option.bind_some]
          rw [if_neg (by omega)]
  | cons z l₁ ih =>
      obtain ⟨n, rfl⟩ : ∃ k, n = k + 1 := ⟨n - 1, by simp at hn; omega⟩
      obtain ⟨hz, hl⟩ := h
      simp only [List.cons_append, first_cons, skipNewer, hz, Option.bind_eq_bind, Option.bind_some]
      rw [if_pos (hnewer z List.mem_cons_self)]
      exact ih hl (fun y hy => hnewer y (List.mem_cons_of_mem _ hy)) (by simpa using hn)

theorem store_next {a : Nat} (h : s.mem a = some node) (q : FilePtr) :
    s.store a (fun n => { n with next := q }) = some { s with mem := setNext s.mem (some a) q } := by
  rw [store_eq h, setNext, h]
  rfl

theorem store_previous {a : Nat} (h : s.mem a = some node) (q : FilePtr) :
    s.store a (fun n => { n with previous := q }) =
      some { s with mem := setPrevious s.mem (some a) q } := by
  rw [store_eq h, setPrevious, h]
  rfl

/-- The memory after a node has been put between two stretches. -/
def inserted (mem : Memory CcaskFile) (x : Nat) (f : CcaskFile) (l₁ l₂ : List (Nat × CcaskFile)) :
    Memory CcaskFile :=
  setPrevious (setNext (Function.update mem x (some ⟨f, first l₂ none, last none l₁⟩))
    (last none l₁) (some x)) (first l₂ none) (some x)

/-- The node goes between those that are newer and those that are older, in all four cases. -/
theorem addFileToLinkedList_eq (h : Represents s (l₁ ++ l₂)) (hx : s.mem x = some node)
    (hnew : x ∉ (l₁ ++ l₂).map Prod.fst) (hnewer : ∀ y ∈ l₁, node.value.fileId < y.2.fileId)
    (holder : ∀ y ∈ l₂.head?, y.2.fileId < node.value.fileId) :
    addFileToLinkedList x s = some { s with
      mem := inserted s.mem x node.value l₁ l₂
      head := first (l₁ ++ (x, node.value) :: l₂) none
      tail := last none (l₁ ++ (x, node.value) :: l₂) } := by
  have hlen := h.length_le
  obtain ⟨hhead, htail, hseg, hnodup, hbelow, -⟩ := h
  have hskip := skipNewer_eq (n := s.fresh + 1) hseg hnewer holder (by
    rw [List.length_append] at hlen
    omega)
  rw [List.map_append, List.mem_append, not_or] at hnew
  induction l₁ using List.reverseRecOn with
  | nil =>
      cases l₂ with
      | nil =>
          simp only [addFileToLinkedList, hhead, List.append_nil, first_nil, store_eq hx,
            Option.bind_eq_bind, Option.bind_some]
          rfl
      | cons y l₂ =>
          obtain ⟨hy, -⟩ := hseg
          have hne : y.1 ≠ x := fun heq => hnew.2 (heq ▸ List.mem_cons_self)
          have hy' : (Function.update s.mem x (some ⟨node.value, some y.1, none⟩)) y.1 =
              some ⟨y.2, first l₂ none, none⟩ := by
            rw [Function.update_of_ne hne, hy]
          simp only [addFileToLinkedList, hhead, List.nil_append, first_cons, hx, hy,
            Option.bind_eq_bind, Option.bind_some]
          rw [if_pos (holder y rfl), store_eq hx, Option.bind_some, store_previous hy']
          simp only [Option.bind_some, htail]
          rfl
  | append_singleton l₁ z ih =>
      clear ih
      have hz : s.mem z.1 = some ⟨z.2, first l₂ none, last none l₁⟩ := by
        rw [List.append_assoc] at hseg
        exact (segment_append.mp hseg).2.1
      obtain ⟨w, l, hfront⟩ : ∃ w l, l₁ ++ [z] = w :: l := by
        cases l₁ with
        | nil => exact ⟨z, [], rfl⟩
        | cons w l₁ => exact ⟨w, l₁ ++ [z], rfl⟩
      have hfirst : s.head = some w.1 := by rw [hhead, first_append, hfront, first_cons]
      have hw : ∃ c, s.mem w.1 = some c ∧ c.value = w.2 := by
        rw [hfront] at hseg
        exact ⟨_, hseg.1, rfl⟩
      obtain ⟨c, hc, hcv⟩ := hw
      have hnot : ¬ c.value.fileId < node.value.fileId := by
        have hlt := hnewer w (by rw [hfront]; exact List.mem_cons_self)
        rw [hcv]
        omega
      have hlast : last none (l₁ ++ [z]) = some z.1 := by rw [last_append, last_cons, last_nil]
      have hzx : z.1 ≠ x := fun heq => hnew.1 (by simp [← heq])
      have hhead' : first (l₁ ++ [z] ++ (x, node.value) :: l₂) none = s.head := by
        rw [hfirst, first_append, hfront, first_cons]
      rw [first_append, hfront, first_cons] at hskip
      simp only [addFileToLinkedList, hfirst, hx, hc, Option.bind_eq_bind, Option.bind_some]
      rw [if_neg hnot, hskip, Option.bind_some, hhead']
      cases l₂ with
      | nil =>
          have htail' : s.tail = some z.1 := by rw [htail, List.append_nil, hlast]
          have hx' : (setNext s.mem (some z.1) (some x)) x = some node := by
            rw [setNext_of_ne (fun heq => hzx (Option.some.inj heq)), hx]
          simp only [first_nil, htail', Option.bind_some]
          rw [store_next hz, Option.bind_some, store_eq hx', Option.bind_some, inserted, first_nil, hlast,
            last_append, hlast]
          simp only [setNext, setPrevious, Function.update_of_ne hzx, last_cons, last_nil]
          rw [Function.update_comm hzx.symm, hfirst]
      | cons y l₂ =>
          have hy : s.mem y.1 = some ⟨y.2, first l₂ none, some z.1⟩ := by
            have hrest := (segment_append.mp hseg).2
            rw [hlast] at hrest
            exact hrest.1
          have hyx : y.1 ≠ x := fun heq => hnew.2 (heq ▸ List.mem_cons_self)
          have hzy : z.1 ≠ y.1 := by
            rw [List.map_append, List.nodup_append] at hnodup
            exact hnodup.2.2 _ (by simp) _ List.mem_cons_self
          have hz' : (Function.update s.mem x (some ⟨node.value, some y.1, some z.1⟩)) z.1 =
              some ⟨z.2, some y.1, last none l₁⟩ := by
            rw [Function.update_of_ne hzx, hz, first_cons]
          have hy' : (setNext (Function.update s.mem x (some ⟨node.value, some y.1, some z.1⟩))
              (some z.1) (some x)) y.1 = some ⟨y.2, first l₂ none, some z.1⟩ := by
            rw [setNext_of_ne (fun heq => hzy (Option.some.inj heq)), Function.update_of_ne hyx, hy]
          simp only [first_cons, hy, Option.bind_some]
          rw [store_eq hx, Option.bind_some, store_next hz', Option.bind_some, store_previous hy', inserted, first_cons, hlast,
            last_append, hlast, last_cons, last_cons, htail, last_append, last_cons, hfirst]

/-- The state after `malloc` has given a node. -/
def allocated (s : FilesState) (f : CcaskFile) : FilesState :=
  { s with mem := Function.update s.mem s.fresh (some ⟨f, none, none⟩), fresh := s.fresh + 1 }

/-- A fresh node is not in the list. -/
theorem Represents.fresh_notMem (h : Represents s l) : s.fresh ∉ l.map Prod.fst :=
  fun hmem => Nat.lt_irrefl _ (h.below _ hmem)

theorem Represents.allocated (h : Represents s l) (f : CcaskFile) : Represents (allocated s f) l :=
  ⟨h.head, h.tail, h.segment.update h.fresh_notMem _, h.nodup,
    fun a ha => Nat.lt_succ_of_lt (h.below a ha), h.table⟩

/-- Where a file goes, and the list of the rest of the model with it. -/
theorem addFile_split (f : CcaskFile) (l : List (Nat × CcaskFile))
    (hid : f.fileId ∉ l.map fun y => y.2.fileId) : ∃ l₁ l₂, l = l₁ ++ l₂ ∧
      (∀ y ∈ l₁, f.fileId < y.2.fileId) ∧ (∀ y ∈ l₂.head?, y.2.fileId < f.fileId) ∧
      ∀ x, Model.addFile f (l.map Prod.snd) = (l₁ ++ (x, f) :: l₂).map Prod.snd := by
  rw [addFile_eq_linkFile (by rwa [List.map_map])]
  induction l with
  | nil => exact ⟨[], [], rfl, nofun, nofun, fun _ => rfl⟩
  | cons y l ih =>
      rw [List.map_cons, List.mem_cons, not_or] at hid
      by_cases hlt : f.fileId < y.2.fileId
      · obtain ⟨l₁, l₂, rfl, hnewer, holder, hadd⟩ := ih hid.2
        refine ⟨y :: l₁, l₂, rfl, ?_, holder, fun x => ?_⟩
        · intro z hz
          obtain rfl | hz := List.mem_cons.mp hz
          · exact hlt
          · exact hnewer z hz
        · rw [List.map_cons, linkFile, if_pos hlt, hadd x]
          rfl
      · refine ⟨[], y :: l, rfl, nofun, ?_, fun x => ?_⟩
        · rintro z hz
          obtain rfl := Option.some.inj hz
          have := hid.1
          omega
        · rw [List.map_cons, linkFile, if_neg hlt]
          rfl

/-- A new node is added to the list where its id belongs. -/
theorem Represents.addFile (h : Represents s l) (hid : f.fileId ∉ l.map fun y => y.2.fileId) :
    ∃ s' l', Linked.addFile s.fresh (Audit.allocated s f) = some s' ∧ Represents s' l' ∧
      l'.map Prod.snd = Model.addFile f (l.map Prod.snd) ∧
      (∀ y, l.head? = some y → y.2.fileId < f.fileId → l' = (s.fresh, f) :: l) := by
  obtain ⟨l₁, l₂, rfl, hnewer, holder, hadd⟩ := addFile_split f l hid
  have hfresh := h.fresh_notMem
  have hmem : (Audit.allocated s f).mem s.fresh = some ⟨f, none, none⟩ := Function.update_self ..
  have hadd' := addFileToLinkedList_eq (h.allocated f) hmem hfresh hnewer holder
  have hperm : (l₁ ++ (s.fresh, f) :: l₂).Perm ((s.fresh, f) :: (l₁ ++ l₂)) := List.perm_middle
  refine ⟨_, l₁ ++ (s.fresh, f) :: l₂, by rw [Linked.addFile, hadd']; rfl, ?_, (hadd s.fresh).symm, ?_⟩
  · constructor
    case head => rfl
    case tail => rfl
    case segment => exact (h.allocated f).segment.insert h.nodup hfresh
    case nodup =>
      rw [(hperm.map Prod.fst).nodup_iff]
      exact List.nodup_cons.mpr ⟨hfresh, h.nodup⟩
    case below =>
      intro a ha
      obtain rfl | ha := List.mem_cons.mp ((hperm.map Prod.fst).mem_iff.mp ha)
      · exact Nat.lt_succ_self _
      · exact Nat.lt_succ_of_lt (h.below a ha)
    case table =>
      have htable : (s.hashTable ++ [s.fresh]).Perm (s.fresh :: s.hashTable) :=
        List.perm_append_singleton _ _
      exact htable.trans ((h.table.cons s.fresh).trans (hperm.map Prod.fst).symm)
  · intro y hy hlt
    cases l₁ with
    | nil => rfl
    | cons z l₁ =>
        obtain rfl := Option.some.inj hy
        have := hnewer z List.mem_cons_self
        omega

/-- A file of the list gets other values. -/
theorem Represents.setValue {a : Nat} (h : Represents s (l₁ ++ (a, f) :: l₂)) (g : CcaskFile → CcaskFile) :
    ∃ s', s.store a (fun node => { node with value := g node.value }) = some s' ∧
      Represents s' (l₁ ++ (a, g f) :: l₂) := by
  have ha := (segment_append.mp h.segment).2.1
  have haddr : (l₁ ++ (a, g f) :: l₂).map Prod.fst = (l₁ ++ (a, f) :: l₂).map Prod.fst := by
    simp only [List.map_append, List.map_cons]
  refine ⟨_, store_eq ha _, ?_⟩
  have hvalue := h.segment.setValue h.nodup (g f)
  rw [ha] at hvalue
  constructor
  case head => rw [h.head, first_append, first_append]; rfl
  case tail => rw [h.tail, last_append, last_append]; rfl
  case segment => exact hvalue
  case nodup => rw [haddr]; exact h.nodup
  case below => rw [haddr]; exact h.below
  case table => rw [haddr]; exact h.table

/-- The file before, or the head, gets another next. -/
theorem unlink_before {before : Nat} {after : Option Nat} (h : Segment s.mem none l₁ after)
    (hhead : s.head = first l₁ (some before)) (q : FilePtr) :
    (match last none l₁ with
      | some previous => s.store previous fun n => { n with next := q }
      | none => some { s with head := q }) =
    some { s with mem := setNext s.mem (last none l₁) q, head := first l₁ q } := by
  induction l₁ using List.reverseRecOn with
  | nil => rfl
  | append_singleton l y ih =>
      clear ih
      have hlast : last none (l ++ [y]) = some y.1 := by rw [last_append, last_cons, last_nil]
      have hfirst : first (l ++ [y]) q = s.head := by rw [hhead, first_append, first_append]; rfl
      rw [hlast, hfirst]
      exact store_next (segment_append.mp h).2.1 q

/-- The file behind, or the tail, gets another previous. -/
theorem unlink_behind {before : Option Nat} (h : Segment s.mem before l₂ none)
    (htail : s.tail = last before l₂) (q : FilePtr) :
    (match first l₂ none with
      | some next => s.store next fun n => { n with previous := q }
      | none => some { s with tail := q }) =
    some { s with mem := setPrevious s.mem (first l₂ none) q, tail := last q l₂ } := by
  cases l₂ with
  | nil => rfl
  | cons y l₂ =>
      have hlast : last q (y :: l₂) = s.tail := by rw [htail, last_cons, last_cons]
      rw [first_cons, hlast]
      exact store_previous h.1 q

/-- One file is closed, and the others stay linked. -/
theorem Represents.shutdownFile {a : Nat} (h : Represents s (l₁ ++ (a, f) :: l₂)) :
    ∃ s', Linked.shutdownFile a s = some s' ∧ Represents s' (l₁ ++ l₂) := by
  obtain ⟨s₁, hs₁, h₁⟩ := h.setValue fun f => { f with fd := none }
  obtain ⟨hfront, ha, hback⟩ := segment_append.mp h₁.segment
  have haddr : ((l₁ ++ (a, { f with fd := none }) :: l₂).map Prod.fst).Perm
      (a :: (l₁ ++ l₂).map Prod.fst) := List.perm_middle.map Prod.fst
  obtain ⟨hnot, hnodup⟩ := List.nodup_cons.mp (haddr.nodup_iff.mp h₁.nodup)
  have hdisj : ∀ b, last none l₁ = some b → b ∉ l₂.map Prod.fst := by
    intro b hb hmem
    rw [List.map_append, List.nodup_append] at hnodup
    exact hnodup.2.2 b (mem_of_last hb) b hmem rfl
  have hbefore := unlink_before (q := first l₂ none) hfront (by rw [h₁.head, first_append, first_cons])
  have hbehind := unlink_behind (s := { s₁ with
      mem := setNext s₁.mem (last none l₁) (first l₂ none), head := first l₁ (first l₂ none) })
    (q := last none l₁) (hback.setNext_frame hdisj _) (by rw [h₁.tail, last_append, last_cons])
  refine ⟨{ s₁ with
    mem := Function.update (setPrevious (setNext s₁.mem (last none l₁) (first l₂ none)) (first l₂ none)
      (last none l₁)) a none
    hashTable := s₁.hashTable.erase a
    head := first (l₁ ++ l₂) none
    tail := last none (l₁ ++ l₂) }, ?_, ?_⟩
  · simp only [Linked.shutdownFile, hs₁, ha, Option.bind_eq_bind, Option.bind_some]
    refine (congrArg (Option.bind · _) hbefore).trans ?_
    refine (congrArg (Option.bind · _) hbehind).trans ?_
    rw [first_append, last_append]
    rfl
  · constructor
    case head => rfl
    case tail => rfl
    case segment => exact (h₁.segment.remove h₁.nodup).update hnot _
    case nodup => exact hnodup
    case below => exact fun b hb => h₁.below b (haddr.mem_iff.mpr (List.mem_cons_of_mem _ hb))
    case table =>
      have htable := (h₁.table.trans haddr).erase a
      rwa [List.erase_cons_head] at htable

/-- In whatever order the files are closed, nothing is left. -/
theorem Represents.shutdown (h : Represents s l) {order : List Nat} (horder : order.Perm (l.map Prod.fst)) :
    ∃ s', Linked.ccaskFilesShutdown order s = some s' ∧ Represents s' [] := by
  induction order generalizing s l with
  | nil =>
      obtain rfl : l = [] := List.map_eq_nil_iff.mp horder.nil_eq.symm
      exact ⟨s, rfl, h⟩
  | cons a order ih =>
      have ha : a ∈ l.map Prod.fst := horder.mem_iff.mp List.mem_cons_self
      obtain ⟨⟨a, f⟩, hy, rfl⟩ := List.mem_map.mp ha
      obtain ⟨l₁, l₂, rfl⟩ := List.append_of_mem hy
      obtain ⟨s', hs', hrep⟩ := h.shutdownFile
      have hperm : ((l₁ ++ (a, f) :: l₂).map Prod.fst).Perm (a :: (l₁ ++ l₂).map Prod.fst) :=
        List.perm_middle.map Prod.fst
      obtain ⟨s'', hs'', hempty⟩ := ih hrep (List.perm_cons a |>.mp (horder.trans hperm))
      refine ⟨s'', ?_, hempty⟩
      rw [Linked.ccaskFilesShutdown, List.foldlM_cons, hs']
      exact hs''

end Pointers

section Calls

variable {α β : Type}

/-- The call does not look at the list of files. -/
def IgnoresFiles (m : Sys α) : Prop :=
  ∀ rs w files, m.run rs { w with files } = match m.run rs w with
    | .returned a rest v => .returned a rest { v with files }
    | .pending v => .pending { v with files }

namespace IgnoresFiles

theorem pure (a : α) : IgnoresFiles (Pure.pure a) := fun _ _ _ => rfl

theorem bind {m : Sys α} {k : α → Sys β} (hm : IgnoresFiles m) (hk : ∀ a, IgnoresFiles (k a)) :
    IgnoresFiles (m >>= k) := by
  intro rs w files
  rw [Prog.run_bind, Prog.run_bind, hm]
  cases m.run rs w with
  | returned a rest v => exact hk a rest v files
  | pending v => rfl

theorem call {k : Reply → Sys β} (hk : ∀ r, IgnoresFiles (k r)) : IgnoresFiles (Prog.call >>= k) := by
  intro rs w files
  cases rs with
  | nil => rfl
  | cons r rs => exact hk r rs w files

theorem state {k : World → Sys β} (hk : ∀ w, IgnoresFiles (k w))
    (hsame : ∀ w files, k { w with files } = k w) : IgnoresFiles (Prog.state >>= k) := by
  intro rs w files
  show (k { w with files }).run rs { w with files } = _
  rw [hsame]
  exact hk w rs w files

theorem modify {f : World → World} (hf : ∀ w files, f { w with files } = { f w with files }) :
    IgnoresFiles (Prog.modify f) := by
  intro rs w files
  show Outcome.returned () rs (f { w with files }) = _
  rw [hf]
  rfl

theorem attempt {m : Sys (Res α)} (hm : IgnoresFiles m) (n : Nat) : IgnoresFiles (attempt n m) := by
  induction n with
  | zero => exact pure _
  | succ n ih =>
      refine bind hm fun r => ?_
      cases r with
      | ok a => exact pure _
      | fail e => exact pure _
      | retry e =>
          show IgnoresFiles (if n = 0 then Pure.pure (.retry e) else Model.attempt n m)
          split
          · exact pure _
          · exact ih

end IgnoresFiles

theorem malloc_ignores : IgnoresFiles malloc :=
  .call fun r => by cases r <;> exact .pure _

theorem openCreate_ignores (name : Name) : IgnoresFiles (openCreate name) := by
  refine .call fun r => ?_
  have hopen : IgnoresFiles (do
      let w ← Prog.state
      Prog.modify fun w => { w with fs := (w.fs.create name).1 }
      Pure.pure (.ok (w.fs.create name).2) : Sys (Res Ino)) :=
    .state (fun w => .bind (.modify fun _ _ => rfl) fun _ => .pure _) fun _ _ => rfl
  cases r with
  | done n => exact hopen
  | intr => exact hopen
  | transient => exact .pure _
  | fail => exact .pure _

theorem createNewActiveDatafile_ignores (id : Nat) : IgnoresFiles (createNewActiveDatafile id) := by
  refine .bind ((openCreate_ignores _).attempt 5) fun r => ?_
  cases r with
  | ok ino => exact .state (fun _ => .pure _) fun _ _ => rfl
  | fail e => exact .pure _
  | retry e => exact .pure _

theorem ccaskHintfileGenerate_ignores (id : Nat) : IgnoresFiles (ccaskHintfileGenerate id) := by
  refine .bind malloc_ignores fun b => ?_
  cases b with
  | false => exact .pure _
  | true =>
      refine .call fun r => ?_
      cases r with
      | done n => exact .bind (.modify fun _ _ => rfl) fun _ => .pure _
      | intr => exact .bind (.modify fun _ _ => rfl) fun _ => .pure _
      | transient => exact .pure _
      | fail => exact .pure _

end Calls

section Directory

variable {w : World} {names : List Name}

/-- The ids of the datafiles that the scan of the directory finds: those whose `stat` is answered. -/
def statted : List Name → List Reply → List Nat
  | [], _ => []
  | name :: names, rs =>
    if name = ['.'] ∨ name = ['.', '.'] then statted names rs
    else match rs with
      | [] => []
      | .transient :: rs | .fail :: rs => statted names rs
      | .done _ :: rs | .intr :: rs =>
        match dataId name with
        | none => statted names rs
        | some id => id :: statted names rs.tail

theorem statted_sublist (names : List Name) (rs : List Reply) :
    (statted names rs).Sublist (names.filterMap dataId) := by
  induction names generalizing rs with
  | nil => exact List.Sublist.refl _
  | cons name names ih =>
      have hskip : (names.filterMap dataId).Sublist ((name :: names).filterMap dataId) :=
        (List.sublist_cons_self name names).filterMap dataId
      unfold statted
      split
      · exact (ih rs).trans hskip
      · split
        · exact List.nil_sublist _
        · exact (ih _).trans hskip
        · exact (ih _).trans hskip
        all_goals
          cases hd : dataId name with
          | none => exact (ih _).trans hskip
          | some id =>
              rw [List.filterMap_cons_some hd]
              exact (ih _).cons_cons id

theorem dataId_dots {name : Name} (h : name = ['.'] ∨ name = ['.', '.']) : dataId name = none := by
  obtain rfl | rfl := h
  · rfl
  · rfl

theorem malloc_returned {rs rest : List Reply} {b : Bool} {v : World}
    (h : malloc.run rs w = .returned b rest v) : v = w ∧ rest = rs.tail := by
  cases rs with
  | nil => cases h
  | cons r rs =>
      cases r
      all_goals
        cases h
        exact ⟨rfl, rfl⟩

/-- What one entry adds, and how many replies it takes. -/
theorem scanEntry_returned {name : Name} {rs rest : List Reply} {v : World}
    (h : (Model.scanEntry name).run rs w = .returned () rest v) :
    (v = w ∧ (∀ names, statted (name :: names) rs = statted names rest) ∧
        (AllClean rs → dataId name = none)) ∨
      ∃ id, dataId name = some id ∧ v = { w with files := Model.addFile (scannedNode w id) w.files } ∧
        ∀ names, statted (name :: names) rs = id :: statted names rest := by
  unfold Model.scanEntry at h
  by_cases hdots : name = ['.'] ∨ name = ['.', '.']
  · rw [if_pos hdots] at h
    cases h
    exact .inl ⟨rfl, fun names => if_pos hdots, fun _ => dataId_dots hdots⟩
  · rw [if_neg hdots] at h
    have hstatted : ∀ names rs, statted (name :: names) rs = _ := fun names rs => if_neg hdots
    cases rs with
    | nil => cases h
    | cons r rs =>
        have hfail : ¬ r.Clean → ¬ AllClean (r :: rs) := fun hr hrs => hr (hrs r List.mem_cons_self)
        rcases r with n | _ | _ | _
        case transient => cases h; exact .inl ⟨rfl, fun _ => hstatted _ _, fun hrs => (hfail id hrs).elim⟩
        case fail => cases h; exact .inl ⟨rfl, fun _ => hstatted _ _, fun hrs => (hfail id hrs).elim⟩
        all_goals
          rw [Prog.run_call_bind] at h
          simp only at h
          cases hparse : parseFilename name with
          | none => rw [hparse] at h; cases h
          | some x =>
              obtain ⟨ext, id⟩ := x
              rw [hparse] at h
              cases ext
              case data =>
                have hid : dataId name = some id := by rw [dataId, hparse]
                obtain ⟨b, mid, u, hb, hadd⟩ := Prog.run_bind_eq_returned h
                obtain ⟨rfl, rfl⟩ := malloc_returned hb
                cases b with
                | false => cases hadd
                | true =>
                    cases hadd
                    refine .inr ⟨id, hid, by rw [scannedNode, Fs.isSome_read], fun names => ?_⟩
                    rw [hstatted, hid]
              all_goals
                have hid : dataId name = none := by rw [dataId, hparse]
                cases h
                refine .inl ⟨rfl, fun names => ?_, fun _ => hid⟩
                rw [hstatted, hid]

/-- The scan leaves the files it has found. -/
theorem scanDirectory_returned {rs rest : List Reply} {v : World}
    (h : (Model.scanDirectory names).run rs w = .returned () rest v) :
    v = { w with files := scannedFiles w (statted names rs) } ∧
      (AllClean rs → statted names rs = names.filterMap dataId) := by
  induction names generalizing rs w with
  | nil => cases h; exact ⟨rfl, fun _ => rfl⟩
  | cons name names ih =>
      obtain ⟨⟨⟩, mid, u, hentry, hrest⟩ := Prog.run_bind_eq_returned h
      have hsuffix := (Model.scanEntry name).suffix hentry
      obtain ⟨rfl, hids⟩ := ih hrest
      obtain ⟨rfl, hnames, hclean⟩ | ⟨id, hid, rfl, hnames⟩ := scanEntry_returned hentry
      · rw [hnames]
        refine ⟨rfl, fun hrs => ?_⟩
        rw [List.filterMap_cons_none (hclean hrs), hids fun r hr => hrs r (hsuffix.mem hr)]
      · rw [hnames, List.filterMap_cons_some hid]
        refine ⟨rfl, fun hrs => ?_⟩
        rw [hids fun r hr => hrs r (hsuffix.mem hr)]

/-- However many are found, the files stand in descending order. -/
theorem scanDirectory_ensures (hids : (names.filterMap dataId).Nodup) (hfiles : w.files = []) :
    Ensures (fun _ => True) (Model.scanDirectory names) w (fun _ v =>
      (v.files.map CcaskFile.fileId).Pairwise (· > ·) ∧
        ∀ id ∈ v.files.map CcaskFile.fileId, id ∈ names.filterMap dataId) (fun _ => True) := by
  intro rs _
  cases hrun : (Model.scanDirectory names).run rs w with
  | pending v => trivial
  | returned a rest v =>
      obtain ⟨rfl, -⟩ := scanDirectory_returned hrun
      have hsub := statted_sublist names rs
      obtain ⟨hsorted, hmem⟩ := scannedFiles_spec (w := w) (hids.sublist hsub) hfiles
      refine ⟨hsorted, fun id hid => ?_⟩
      obtain ⟨f, hf, rfl⟩ := List.mem_map.mp hid
      obtain ⟨i, hi, rfl⟩ := (hmem f).mp hf
      exact hsub.mem hi

end Directory

section Simulation

/-- The list in memory is the list of files of the world. -/
def Same (l : List (Nat × CcaskFile)) (p : Process) (w : World) : Prop :=
  Represents p.filesState l ∧ w = { p.world with files := l.map Prod.snd }

variable {α : Type} {l : List (Nat × CcaskFile)} {p : Process} {w : World}

/-- Calls that do not look at the list march in step. -/
theorem onWorld_simulates {m : Sys α} (hm : IgnoresFiles m) (h : Same l p w) :
    Simulates (onWorld m) p m w fun a b p' w' => a = b ∧ Same l p' w' ∧ p'.filesState = p.filesState := by
  obtain ⟨hrep, rfl⟩ := h
  intro rs
  rw [hm]
  unfold onWorld Prog.zoom
  dsimp only
  cases m.run rs p.world with
  | returned a rest v => exact ⟨rfl, rfl, ⟨hrep, rfl⟩, rfl⟩
  | pending v => trivial

/-- Both get memory, or neither does. -/
theorem malloc_simulates {β γ : Type} {k : Bool → Prog Process β} {k' : Bool → Sys γ}
    {S : β → γ → Process → World → Prop} (h : Same l p w)
    (hk : ∀ b p' w', Same l p' w' → p'.filesState = p.filesState → Simulates (k b) p' (k' b) w' S) :
    Simulates (onWorld malloc >>= k) p (malloc >>= k') w S := by
  refine (onWorld_simulates malloc_ignores h).bind ?_
  rintro b _ p' w' ⟨rfl, hsame, hfs⟩
  exact hk b p' w' hsame hfs

/-- The ids of the files of a list. -/
def idsOf (l : List (Nat × CcaskFile)) : List Nat := l.map fun y => y.2.fileId

theorem idsOf_eq (l : List (Nat × CcaskFile)) : idsOf l = (l.map Prod.snd).map CcaskFile.fileId := by
  rw [List.map_map]
  rfl

theorem mem_idsOf_addFile {l l' : List (Nat × CcaskFile)} {f : CcaskFile} {id : Nat}
    (h : l'.map Prod.snd = Model.addFile f (l.map Prod.snd)) :
    id ∈ idsOf l' ↔ id = f.fileId ∨ id ∈ idsOf l := by
  rw [idsOf_eq, idsOf_eq, h, List.mem_map, List.mem_map]
  constructor
  · rintro ⟨g, hg, rfl⟩
    obtain rfl | hg := mem_addFile.mp hg
    · exact .inl rfl
    · exact .inr ⟨g, hg, rfl⟩
  · rintro (rfl | ⟨g, hg, rfl⟩)
    · exact ⟨f, mem_addFile.mpr (.inl rfl), rfl⟩
    · exact ⟨g, mem_addFile.mpr (.inr hg), rfl⟩

theorem allocate_simulates {β γ : Type} {k : Nat → Prog Process β} {n : Sys γ}
    {S : β → γ → Process → World → Prop} {f : CcaskFile}
    (hk : Simulates (k p.filesState.fresh)
      { p with filesState := allocated p.filesState f } n w S) :
    Simulates (allocate f >>= k) p n w S := hk

theorem onFiles_run {f : FilesState → Option FilesState} {s : FilesState} (hf : f p.filesState = some s)
    (rs : List Reply) : (onFiles f).run rs p = .returned () rs { p with filesState := s } := by
  rw [onFiles, Prog.run_state_bind, hf]
  rfl

theorem onFiles_simulates {β γ : Type} {k : Unit → Prog Process β} {n : Sys γ}
    {S : β → γ → Process → World → Prop} {f : FilesState → Option FilesState} {s : FilesState}
    (hf : f p.filesState = some s) (hk : Simulates (k ()) { p with filesState := s } n w S) :
    Simulates (onFiles f >>= k) p n w S := by
  intro rs
  rw [Prog.run_bind, onFiles_run hf]
  exact hk rs

theorem onFiles_modify {f : FilesState → Option FilesState} {s : FilesState} {g : World → World}
    {S : Unit → Unit → Process → World → Prop} (hf : f p.filesState = some s)
    (hS : S () () { p with filesState := s } (g w)) : Simulates (onFiles f) p (Prog.modify g) w S := by
  intro rs
  rw [onFiles_run hf]
  exact ⟨rfl, hS⟩

theorem deref_simulates {β γ : Type} {k : FileNode → Prog Process β} {n : Sys γ}
    {S : β → γ → Process → World → Prop} {a : Nat} {node : FileNode} (ha : p.filesState.mem a = some node)
    (hk : Simulates (k node) p n w S) : Simulates (deref (some a) >>= k) p n w S := by
  have hrun : ∀ rs, (deref (some a)).run rs p = .returned node rs p := by
    intro rs
    rw [deref, Prog.run_state_bind, Option.bind_some, ha]
    rfl
  intro rs
  rw [Prog.run_bind, hrun]
  exact hk rs

/-- One entry of the directory. -/
theorem scanEntry_simulates (h : Same l p w) (name : Name)
    (hid : ∀ id, dataId name = some id → id ∉ idsOf l) :
    Simulates (Linked.scanEntry name) p (Model.scanEntry name) w fun _ _ p' w' =>
      ∃ l', Same l' p' w' ∧ ∀ id ∈ idsOf l', id ∈ idsOf l ∨ dataId name = some id := by
  unfold Linked.scanEntry Model.scanEntry
  split
  · exact Simulates.pure ⟨l, h, fun _ => .inl⟩
  · refine Simulates.call_bind fun r => ?_
    have hstay : Simulates (pure ()) p (pure ()) w fun (_ : Unit) (_ : Unit) p' w' =>
        ∃ l', Same l' p' w' ∧ ∀ id ∈ idsOf l', id ∈ idsOf l ∨ dataId name = some id :=
      Simulates.pure ⟨l, h, fun _ => .inl⟩
    rcases r with n | _ | _ | _
    case transient => exact hstay
    case fail => exact hstay
    all_goals
      dsimp only
      cases hparse : parseFilename name with
      | none => exact Simulates.block
      | some x =>
          obtain ⟨ext, id⟩ := x
          cases ext with
          | unknown => exact hstay
          | hint => exact hstay
          | tempData => exact hstay
          | data =>
              have hname : dataId name = some id := by rw [dataId, hparse]
              refine malloc_simulates h fun b p' w' hsame hfs => ?_
              cases b with
              | false => exact Simulates.block
              | true =>
                  obtain ⟨hrep, rfl⟩ := hsame
                  obtain ⟨s', l', hadd, hrep', hfiles, -⟩ := hrep.addFile
                    (f := datafileNode id (p'.world.fs.dir (fileName id .hint)).isSome p'.world.clock)
                    (hid id hname)
                  refine Simulates.state_left (allocate_simulates (onFiles_modify hadd ?_))
                  refine ⟨l', ⟨hrep', ?_⟩, ?_⟩
                  · rw [hfiles]
                  · intro i hi
                    obtain rfl | hi := (mem_idsOf_addFile hfiles).mp hi
                    · exact .inr hname
                    · exact .inl hi

theorem scanDirectory_simulates {names : List Name} (h : Same l p w)
    (hids : (names.filterMap dataId).Nodup) (hnew : ∀ id ∈ names.filterMap dataId, id ∉ idsOf l) :
    Simulates (Linked.scanDirectory names) p (Model.scanDirectory names) w fun _ _ p' w' =>
      ∃ l', Same l' p' w' := by
  induction names generalizing l p w with
  | nil => exact Simulates.pure ⟨l, h⟩
  | cons name names ih =>
      refine (scanEntry_simulates h name ?_).bind ?_
      · intro id hid
        exact hnew id (List.mem_filterMap.mpr ⟨name, List.mem_cons_self, hid⟩)
      · rintro _ _ p' w' ⟨l', hsame, hmem⟩
        have hrest : (names.filterMap dataId).Nodup :=
          hids.sublist ((List.sublist_cons_self name names).filterMap dataId)
        refine ih hsame hrest fun id hid hold => ?_
        obtain hold | hold := hmem id hold
        · refine hnew id ?_ hold
          exact ((List.sublist_cons_self name names).filterMap dataId).mem hid
        · rw [List.filterMap_cons_some hold, List.nodup_cons] at hids
          exact hids.1 hid

/-- A new active file. -/
theorem addActiveFile_simulates {id : Nat} (h : Same l p w) (hid : id ∉ idsOf l) :
    Simulates (addActiveFile id) p (do
      if ← malloc then
        match ← createNewActiveDatafile id with
        | .ok file =>
          Prog.modify fun w => { w with files := Model.addFile file w.files }
          pure (.ok ())
        | .fail e | .retry e => pure (.fail e)
      else pure (.fail (some .noMemory)) : Sys Status) w fun a b p' w' =>
        a = b ∧ ∃ l', Same l' p' w' := by
  unfold addActiveFile
  refine malloc_simulates h fun b p' w' hsame _ => ?_
  cases b with
  | false => exact Simulates.pure ⟨rfl, l, hsame⟩
  | true =>
      refine ((onWorld_simulates (createNewActiveDatafile_ignores id) hsame).ensures
        (createNewActiveDatafile_answers id)).bind ?_
      rintro r _ q v ⟨⟨rfl, hq, -⟩, hr⟩
      obtain ⟨rfl, rfl⟩ | ⟨hr, -, -⟩ := hr
      · obtain ⟨hrep, hv⟩ := hq
        obtain ⟨s', l', hadd, hrep', hfiles, -⟩ := hrep.addFile
          (f := ⟨id, some (w'.fs.create (fileName id .data)).2, w'.clock, false, true, false⟩) hid
        refine allocate_simulates (onFiles_simulates hadd (Simulates.modify_right (Simulates.pure ?_)))
        refine ⟨rfl, l', hrep', ?_⟩
        rw [hv, hfiles]
      · cases r with
        | ok file => cases hr
        | fail e => exact Simulates.pure ⟨rfl, l, hq⟩
        | retry e => exact Simulates.pure ⟨rfl, l, hq⟩

/-- The file of that id alone gets other values. -/
theorem setFile_of_distinct {head : CcaskFile} {rest : List CcaskFile} (hfiles : w.files = head :: rest)
    (h : (w.files.map CcaskFile.fileId).Pairwise (· > ·)) (g : CcaskFile → CcaskFile) :
    w.setFile head.fileId g = { w with files := g head :: rest } := by
  rw [hfiles, List.map_cons, List.pairwise_cons] at h
  rw [World.setFile, hfiles, List.map_cons, if_pos rfl]
  congr 2
  rw [List.map_congr_left (g := id), List.map_id]
  intro f hf
  exact if_neg (Nat.ne_of_lt (h.1 _ (List.mem_map_of_mem hf)))

/-- The first file gets other values. -/
theorem setHead_simulates {a : Nat} {head : CcaskFile} {rest : List (Nat × CcaskFile)}
    (h : Same ((a, head) :: rest) p w) (hsorted : (w.files.map CcaskFile.fileId).Pairwise (· > ·))
    (g : CcaskFile → CcaskFile) : ∃ s',
      p.filesState.store a (fun node => { node with value := g node.value }) = some s' ∧
      Same ((a, g head) :: rest) { p with filesState := s' } (w.setFile head.fileId g) := by
  obtain ⟨hrep, rfl⟩ := h
  obtain ⟨s', hs', hrep'⟩ := Represents.setValue (show Represents _ ([] ++ _) from hrep) g
  refine ⟨s', hs', hrep', ?_⟩
  rw [setFile_of_distinct rfl hsorted]
  rfl

theorem chooseActiveFile_simulates (h : Same l p w)
    (hsorted : (w.files.map CcaskFile.fileId).Pairwise (· > ·))
    (hmax : ∀ id ∈ idsOf l, id + 1 < 2 ^ 64) :
    Simulates Linked.chooseActiveFile p Model.chooseActiveFile w fun a b p' w' =>
      a = b ∧ ∃ l', Same l' p' w' := by
  unfold Linked.chooseActiveFile Model.chooseActiveFile
  refine Simulates.state_bind ?_
  obtain ⟨hrep, hw⟩ := id h
  have hfiles : w.files = l.map Prod.snd := by rw [hw]
  rw [hfiles, hrep.head]
  cases l with
  | nil => exact addActiveFile_simulates h nofun
  | cons x rest =>
      obtain ⟨a, head⟩ := x
      have ha : p.filesState.mem a = some ⟨head, first rest none, none⟩ := hrep.segment.1
      rw [List.map_cons, first_cons]
      refine deref_simulates ha ?_
      dsimp only
      have hid : head.fileId + 1 < 2 ^ 64 := hmax _ List.mem_cons_self
      rw [Nat.mod_eq_of_lt hid]
      cases hhint : head.hasHint with
      | true =>
          rw [if_pos rfl, if_pos rfl]
          refine addActiveFile_simulates h fun hmem => ?_
          rw [hfiles, ← idsOf_eq, idsOf, List.map_cons, List.pairwise_cons] at hsorted
          obtain heq | hmem := List.mem_cons.mp hmem
          · exact Nat.succ_ne_self _ heq
          · have hlt := hsorted.1 _ hmem
            dsimp only at hlt
            omega
      | false =>
          rw [if_neg (by simp), if_neg (by simp)]
          have hopen : IgnoresFiles (Model.attempt 5 (ccaskFilesGetActiveDatafileFd head.fileId)) :=
            (openCreate_ignores _).attempt 5
          refine ((onWorld_simulates hopen h).ensures (Q := fun _ v => v.files = w.files)
            (C := fun _ => True) ?_).bind ?_
          · refine (openCreate_answers _).mono ?_ fun _ _ => trivial
            rintro r v (⟨-, rfl⟩ | ⟨-, rfl, -⟩)
            · rfl
            · rfl
          · rintro r _ p' w' ⟨⟨rfl, hsame, hfs⟩, hkept⟩
            cases r with
            | fail e => exact Simulates.pure ⟨rfl, _, hsame⟩
            | retry e => exact Simulates.pure ⟨rfl, _, hsame⟩
            | ok ino =>
                rw [← hkept] at hsorted
                obtain ⟨s', hs', hsame'⟩ := setHead_simulates hsame hsorted
                  fun file => { file with isActive := true, fd := some ino }
                exact onFiles_simulates hs' (Simulates.modify_right (Simulates.pure ⟨rfl, _, hsame'⟩))

/-- The initialisation of the list in memory is that of the list of the rest of the model. -/
theorem ccaskFilesInit_simulates {names : List Name} (threshold : UInt64) (p : Process)
    (hids : (names.filterMap dataId).Nodup) (hmax : ∀ id ∈ names.filterMap dataId, id + 1 < 2 ^ 64) :
    Simulates (Linked.ccaskFilesInit names threshold) p (Model.ccaskFilesInit names threshold) p.world
      fun a b p' w' => a = b ∧ (a = .ok () → ∃ l', Same l' p' w') := by
  let w₀ : World := { p.world with maxActiveFileSize := threshold }
  show Simulates (Prog.call >>= _) { p with world := w₀ } (Prog.call >>= _) w₀ _
  refine Simulates.call_bind fun r => ?_
  rcases r with n | _ | _ | _
  case transient => exact Simulates.pure ⟨rfl, nofun⟩
  case fail => exact Simulates.pure ⟨rfl, nofun⟩
  all_goals
    refine (Simulates.zoom (S := fun a b p' w' => a = b ∧ w' = p'.world) fun _ _ _ _ _ => ⟨rfl, rfl⟩).bind ?_
    rintro b _ p' _ ⟨rfl, rfl⟩
    cases b with
    | false => exact Simulates.pure ⟨rfl, nofun⟩
    | true =>
        refine onFiles_simulates rfl (Simulates.modify_right ?_)
        have hstart : Same []
            { p' with filesState := { p'.filesState with head := none, tail := none, hashTable := [] } }
            { p'.world with files := [] } :=
          ⟨⟨rfl, rfl, trivial, List.nodup_nil, nofun, List.Perm.nil⟩, rfl⟩
        refine ((scanDirectory_simulates hstart hids fun _ _ => by simp [idsOf]).ensures
          (scanDirectory_ensures hids rfl)).bind ?_
        rintro _ _ q v ⟨⟨l, hsame⟩, hsorted, hmem⟩
        have hfiles : v.files = l.map Prod.snd := by rw [hsame.2]
        refine (chooseActiveFile_simulates hsame hsorted fun id hid => ?_).mono ?_
        · rw [idsOf_eq, ← hfiles] at hid
          exact hmax id (hmem id hid)
        · rintro a b p' w' ⟨rfl, hl⟩
          exact ⟨rfl, fun _ => hl⟩

/-- `ccask_files_rotate` on the list up to the file it hands to `ccask_hintfile_generate`. -/
def rotateList : Sys (Res CcaskFile) := do
  if ← malloc then
    let w ← Prog.state
    match w.files with
    | [] => Prog.block
    | head :: _ =>
      match ← createNewActiveDatafile ((head.fileId + 1) % 2 ^ 64) with
      | .ok file =>
        Prog.modify fun w =>
          w.setFile head.fileId fun file => { file with fd := none, isActive := false }
        Prog.modify fun w => { w with files := Model.addFile file w.files }
        let w ← Prog.state
        match w.files with
        | _ :: next :: _ => pure (.ok next)
        | _ => Prog.block
      | .fail _ | .retry _ => pure (.fail none)
  else pure (.fail (some .noMemory))

/-- What follows in `ccask_files_rotate`. -/
def startGenerator : Res CcaskFile → Sys Status
  | .ok file => do
    let _ ← attempt 5 (ccaskHintfileGenerate file.fileId)
    pure (.ok ())
  | .fail e | .retry e => pure (.fail e)

theorem ccaskFilesRotate_eq : Model.ccaskFilesRotate = rotateList >>= startGenerator := by
  unfold Model.ccaskFilesRotate rotateList
  rw [bind_assoc]
  congr 1
  funext b
  cases b with
  | false => rfl
  | true =>
      rw [if_pos rfl, if_pos rfl, bind_assoc]
      congr 1
      funext w
      cases w.files with
      | nil => rfl
      | cons head rest =>
          dsimp only
          rw [bind_assoc]
          congr 1
          funext r
          cases r with
          | fail e => rfl
          | retry e => rfl
          | ok file =>
              dsimp only
              rw [bind_assoc]
              congr 1
              funext u
              rw [bind_assoc]
              congr 1
              funext u
              rw [bind_assoc]
              congr 1
              funext w
              rcases w.files with _ | ⟨head, _ | ⟨next, tail⟩⟩
              · rfl
              · rfl
              · rfl

/-- A node that is not in the list yet does not matter to a store. -/
theorem store_allocated {s s' : FilesState} {a : Nat} {g : FileNode → FileNode} (hs : s.store a g = some s')
    (ha : a ≠ s.fresh) (f : CcaskFile) :
    (allocated s f).store a g = some (allocated s' f) ∧ s'.fresh = s.fresh := by
  unfold FilesState.store at hs
  cases hnode : s.mem a with
  | none => rw [hnode] at hs; cases hs
  | some node =>
      rw [hnode] at hs
      cases hs
      have hnode' : (allocated s f).mem a = some node := by
        rw [← hnode]
        exact Function.update_of_ne ha _ _
      refine ⟨?_, rfl⟩
      rw [store_eq hnode', allocated, allocated, Function.update_comm ha.symm]

/-- The rotation in memory hands over the node that was the head. -/
theorem rotateFiles_simulates (h : Same l p w) (hsorted : (idsOf l).Pairwise (· > ·))
    (hmax : ∀ y, l.head? = some y → y.2.fileId + 1 < 2 ^ 64) :
    Simulates rotateFiles p rotateList w fun a b p' w' => (∃ l', Same l' p' w') ∧ match a, b with
      | .ok file, .ok next => file = p.filesState.head ∧
          ∃ x node, file = some x ∧ p'.filesState.mem x = some node ∧ node.value = next
      | .fail e, .fail e' => e = e'
      | _, _ => False := by
  unfold rotateFiles rotateList
  refine malloc_simulates h fun b p₁ w₁ hsame hfs => ?_
  rw [← hfs]
  clear h hfs
  cases b with
  | false => exact Simulates.pure ⟨⟨l, hsame⟩, rfl⟩
  | true =>
      obtain ⟨hrep, hw⟩ := id hsame
      have hfiles : w₁.files = l.map Prod.snd := by rw [hw]
      refine Simulates.state_bind ?_
      rw [hfiles, hrep.head]
      cases l with
      | nil => exact Simulates.block
      | cons y rest =>
          obtain ⟨a, head⟩ := y
          have ha : p₁.filesState.mem a = some ⟨head, first rest none, none⟩ := hrep.segment.1
          have hid : head.fileId + 1 < 2 ^ 64 := hmax _ rfl
          rw [List.map_cons, first_cons]
          refine deref_simulates ha ?_
          dsimp only
          rw [Nat.mod_eq_of_lt hid]
          refine ((onWorld_simulates (createNewActiveDatafile_ignores _) hsame).ensures
            (createNewActiveDatafile_answers _)).bind ?_
          rintro r _ p₂ w₂ ⟨⟨rfl, hsame₂, hfs⟩, hr⟩
          obtain ⟨rfl, hw₂⟩ | ⟨hr, -, -⟩ := hr
          · obtain ⟨s', hs', hsame'⟩ := setHead_simulates hsame₂ (by rwa [hsame₂.2, ← idsOf_eq])
              fun file => { file with fd := none, isActive := false }
            have hne : a ≠ p₂.filesState.fresh := Nat.ne_of_lt (hsame₂.1.below _ List.mem_cons_self)
            let new : CcaskFile := ⟨head.fileId + 1,
              some (w₁.fs.create (fileName (head.fileId + 1) .data)).2, w₁.clock, false, true, false⟩
            obtain ⟨halloc, hfresh⟩ := store_allocated hs' hne new
            have hnew : new.fileId ∉ idsOf ((a, { head with fd := none, isActive := false }) :: rest) := by
              intro hmem
              rw [idsOf, List.map_cons, List.pairwise_cons] at hsorted
              obtain heq | hmem := List.mem_cons.mp hmem
              · exact Nat.succ_ne_self _ heq
              · exact Nat.lt_asymm (hsorted.1 _ hmem) (Nat.lt_succ_self _)
            obtain ⟨s'', l', hadd, hrep', hfiles', hl'⟩ := hsame'.1.addFile hnew
            obtain rfl := hl' _ rfl (Nat.lt_succ_self _)
            refine allocate_simulates (onFiles_simulates halloc (onFiles_simulates (hfresh ▸ hadd) ?_))
            refine Simulates.state_left ?_
            dsimp only
            rw [hrep'.head, first_cons]
            refine deref_simulates hrep'.segment.1 ?_
            refine Simulates.modify_right (Simulates.modify_right (Simulates.state_right ?_))
            rw [hsame'.2]
            dsimp only
            rw [← hfiles']
            refine Simulates.pure ⟨⟨_, hrep', rfl⟩, rfl, a, _, rfl, hrep'.segment.2.1, rfl⟩
          · cases r with
            | ok file => cases hr
            | fail e => exact Simulates.pure ⟨⟨_, hsame₂⟩, rfl⟩
            | retry e => exact Simulates.pure ⟨⟨_, hsame₂⟩, rfl⟩

/-- The rotation of the list in memory is that of the list of the rest of the model. -/
theorem ccaskFilesRotate_simulates (h : Same l p w) (hsorted : (idsOf l).Pairwise (· > ·))
    (hmax : ∀ y, l.head? = some y → y.2.fileId + 1 < 2 ^ 64) :
    Simulates Linked.ccaskFilesRotate p Model.ccaskFilesRotate w fun a b p' w' =>
      a = b ∧ ∃ l', Same l' p' w' := by
  rw [ccaskFilesRotate_eq]
  unfold Linked.ccaskFilesRotate
  refine (rotateFiles_simulates h hsorted hmax).bind ?_
  rintro a b p₁ w₁ ⟨⟨l₁, hsame⟩, hres⟩
  cases a with
  | ok file =>
      cases b with
      | ok next =>
          obtain ⟨-, x, node, rfl, hx, rfl⟩ := hres
          refine deref_simulates hx ?_
          have hgen : IgnoresFiles (Model.attempt 5 (ccaskHintfileGenerate node.value.fileId)) :=
            (ccaskHintfileGenerate_ignores _).attempt 5
          refine (onWorld_simulates hgen hsame).bind ?_
          rintro _ _ p₂ w₂ ⟨rfl, hsame₂, -⟩
          exact Simulates.pure ⟨rfl, l₁, hsame₂⟩
      | fail e => exact hres.elim
      | retry e => exact hres.elim
  | fail e =>
      cases b with
      | ok next => exact hres.elim
      | fail e' =>
          obtain rfl : e = e' := hres
          exact Simulates.pure ⟨rfl, l₁, hsame⟩
      | retry e' => exact hres.elim
  | retry e =>
      cases b with
      | ok next => exact hres.elim
      | fail e' => exact hres.elim
      | retry e' => exact hres.elim

end Simulation

section Runs

/-- What the program relies on: the nodes are linked both ways in descending order of their ids, and the
newest file alone is active. -/
structure WellLinked (s : FilesState) (l : List (Nat × CcaskFile)) : Prop where
  represents : Represents s l
  forwards : ∀ n, l.length ≤ n → follow Cell.next s.mem n s.head = l.map Prod.fst
  backwards : ∀ n, l.length ≤ n → follow Cell.previous s.mem n s.tail = (l.map Prod.fst).reverse
  descending : (idsOf l).Pairwise (· > ·)
  active : ∃ a head rest, l = (a, head) :: rest ∧ head.isActive = true ∧ head.fd.isSome ∧
    head.hasHint = false ∧ ∀ y ∈ rest, y.2.isActive = false

/-- The newest file alone is active. -/
def NewestActive (files : List CcaskFile) : Prop :=
  (files.map CcaskFile.fileId).Pairwise (· > ·) ∧ ∃ head rest, files = head :: rest ∧
    head.isActive = true ∧ head.fd.isSome ∧ head.hasHint = false ∧ ∀ f ∈ rest, f.isActive = false

variable {l : List (Nat × CcaskFile)} {p q : Process} {w v : World} {names : List Name}

theorem Represents.wellLinked {s : FilesState} (h : Represents s l) (hl : NewestActive (l.map Prod.snd)) :
    WellLinked s l := by
  obtain ⟨hsorted, head, rest, hfiles, hactive⟩ := hl
  refine ⟨h, fun n hn => ?_, fun n hn => ?_, ?_, ?_⟩
  · rw [h.head]
    exact h.segment.follow_next hn
  · rw [h.tail]
    exact h.segment.follow_previous hn
  · rwa [idsOf_eq]
  · cases l with
    | nil => cases hfiles
    | cons y l =>
        cases hfiles
        obtain ⟨hact, hfd, hhint, hrest⟩ := hactive
        exact ⟨y.1, y.2, l, rfl, hact, hfd, hhint, fun z hz => hrest _ (List.mem_map_of_mem hz)⟩

/-- A file that has just been made. -/
def newFile (w : World) (id : Nat) : CcaskFile :=
  ⟨id, some (w.fs.create (fileName id .data)).2, w.clock, false, true, false⟩

/-- The files with the one that takes the writes. -/
def chosenFiles (w : World) : List CcaskFile → List CcaskFile
  | [] => [newFile w 0]
  | head :: rest =>
    if head.hasHint then newFile w (head.fileId + 1) :: head :: rest
    else { head with isActive := true, fd := some (w.fs.create (fileName head.fileId .data)).2 } :: rest

theorem chooseActiveFile_ensures (hsorted : (w.files.map CcaskFile.fileId).Pairwise (· > ·))
    (hmax : ∀ id ∈ w.files.map CcaskFile.fileId, id + 1 < 2 ^ 64) :
    Ensures (fun _ => True) Model.chooseActiveFile w
      (fun r v => r = .ok () → v.files = chosenFiles w w.files) (fun _ => True) := by
  refine Ensures.state_bind ?_
  have hnew : ∀ id, Ensures (fun _ => True) (do
      if ← malloc then
        match ← createNewActiveDatafile id with
        | .ok file =>
          Prog.modify fun w => { w with files := Model.addFile file w.files }
          pure (.ok ())
        | .fail e | .retry e => pure (.fail e)
      else pure (.fail (some .noMemory)) : Sys Status) w
      (fun r v => r = .ok () → v.files = Model.addFile (newFile w id) w.files) (fun _ => True) := by
    intro id
    refine malloc_answers.bind ?_
    rintro b u ⟨rfl, -⟩
    cases b with
    | false => exact Ensures.pure nofun
    | true =>
        refine (createNewActiveDatafile_answers id).bind ?_
        rintro r v (⟨rfl, rfl⟩ | ⟨hr, -, -⟩)
        · exact Ensures.modify_bind (Ensures.pure fun _ => rfl)
        · cases r with
          | ok file => cases hr
          | fail e => exact Ensures.pure nofun
          | retry e => exact Ensures.pure nofun
  cases hfiles : w.files with
  | nil =>
      have hzero := hnew 0
      rwa [hfiles] at hzero
  | cons head rest =>
      have hid : head.fileId + 1 < 2 ^ 64 := hmax _ (by rw [hfiles]; exact List.mem_cons_self)
      dsimp only
      rw [chosenFiles, Nat.mod_eq_of_lt hid]
      by_cases hhint : head.hasHint
      · rw [if_pos hhint, if_pos hhint]
        have hnext := hnew (head.fileId + 1)
        have hadd : Model.addFile (newFile w (head.fileId + 1)) (head :: rest) =
            newFile w (head.fileId + 1) :: head :: rest :=
          addFile_of_lt (Nat.lt_succ_self head.fileId) rest
        rwa [hfiles, hadd] at hnext
      · rw [if_neg hhint, if_neg hhint]
        refine (openCreate_answers _).bind ?_
        rintro r v (⟨rfl, rfl⟩ | ⟨hr, -, -⟩)
        · refine Ensures.modify_bind (Ensures.pure fun _ => ?_)
          have hset := setFile_of_distinct
            (w := { w with fs := (w.fs.create (fileName head.fileId .data)).1 }) hfiles hsorted
            fun file => { file with
              isActive := true, fd := some (w.fs.create (fileName head.fileId .data)).2 }
          rw [hset]
        · cases r with
          | ok ino => cases hr
          | fail e => exact Ensures.pure nofun
          | retry e => exact Ensures.pure nofun

/-- The files after a successful initialisation. -/
theorem ccaskFilesInit_returned {threshold : UInt64} {rs rest : List Reply}
    (hids : (names.filterMap dataId).Nodup) (hmax : ∀ id ∈ names.filterMap dataId, id + 1 < 2 ^ 64)
    (h : (Model.ccaskFilesInit names threshold).run rs w = .returned (.ok ()) rest v) :
    v.files = chosenFiles w (scannedFiles { w with files := [] } (statted names (rs.drop 2))) ∧
      (AllClean rs → statted names (rs.drop 2) = names.filterMap dataId) := by
  cases rs with
  | nil => cases h
  | cons r rs =>
      rcases r with n | _ | _ | _
      case transient => cases h
      case fail => cases h
      all_goals
        change (malloc >>= _).run rs { w with maxActiveFileSize := threshold } = _ at h
        obtain ⟨b, mid, u, hb, hrest⟩ := Prog.run_bind_eq_returned h
        have hsuffix := malloc.suffix hb
        obtain ⟨rfl, rfl⟩ := malloc_returned hb
        cases b with
        | false => cases hrest
        | true =>
            change (Model.scanDirectory names >>= _).run rs.tail _ = _ at hrest
            obtain ⟨⟨⟩, mid, u, hscan, hchoose⟩ := Prog.run_bind_eq_returned hrest
            have hspec := (scanDirectory_ensures hids rfl).returned (fun _ _ => trivial) hscan
            have hfiles := (chooseActiveFile_ensures hspec.1 fun id hid => hmax id (hspec.2 id hid)).returned
              (fun _ _ => trivial) hchoose rfl
            obtain ⟨rfl, hclean⟩ := scanDirectory_returned hscan
            rw [List.drop_succ_cons, List.drop_one]
            exact ⟨hfiles, fun hrs => hclean fun r hr => hrs r (List.mem_cons_of_mem _ (hsuffix.mem hr))⟩

/-- The file that the program finds active is the newest. -/
theorem chosenFiles_active {files : List CcaskFile} (hsorted : (files.map CcaskFile.fileId).Pairwise (· > ·))
    (hactive : ∀ f ∈ files, f.isActive = false) : NewestActive (chosenFiles w files) := by
  cases files with
  | nil => exact ⟨List.pairwise_singleton _ _, _, [], rfl, rfl, rfl, rfl, nofun⟩
  | cons head rest =>
      rw [chosenFiles]
      split
      · refine ⟨?_, _, _, rfl, rfl, rfl, rfl, hactive⟩
        rw [List.map_cons, List.pairwise_cons]
        refine ⟨fun id hid => ?_, hsorted⟩
        obtain rfl | hid := List.mem_cons.mp hid
        · exact Nat.lt_succ_self _
        · exact Nat.lt_succ_of_lt ((List.pairwise_cons.mp hsorted).1 id hid)
      · rename_i hhint
        refine ⟨hsorted, _, _, rfl, rfl, rfl, ?_, fun f hf => hactive f (List.mem_cons_of_mem _ hf)⟩
        simpa using hhint

/-- The file that is made is the only one that was not found. -/
theorem ids_chosenFiles (w : World) (files : List CcaskFile) : ∃ first, first.length ≤ 1 ∧
    (chosenFiles w files).map CcaskFile.fileId = first ++ files.map CcaskFile.fileId := by
  cases files with
  | nil => exact ⟨[0], le_rfl, rfl⟩
  | cons head rest =>
      rw [chosenFiles]
      split
      · exact ⟨[head.fileId + 1], le_rfl, rfl⟩
      · exact ⟨[], Nat.zero_le _, rfl⟩

/-- The scan leaves a file for each id it finds. -/
theorem scannedFiles_ids {l : List Nat} (hl : l.Nodup) (hfiles : w.files = []) :
    ((scannedFiles w l).map CcaskFile.fileId).Perm l := by
  obtain ⟨hsorted, hmem⟩ := scannedFiles_spec hl hfiles
  refine (List.perm_ext_iff_of_nodup (hsorted.imp Nat.ne_of_gt) hl).mpr fun i => ?_
  constructor
  · intro h
    obtain ⟨g, hg, rfl⟩ := List.mem_map.mp h
    obtain ⟨i, hi, rfl⟩ := (hmem g).mp hg
    exact hi
  · intro h
    exact List.mem_map.mpr ⟨scannedNode w i, (hmem _).mpr ⟨i, h, rfl⟩, rfl⟩

/-- The scan leaves the same files in whatever order it finds them. -/
theorem scannedFiles_perm {l l' : List Nat} (hl : l.Nodup) (hperm : l.Perm l') (hfiles : w.files = []) :
    scannedFiles w l = scannedFiles w l' := by
  have hl' := hperm.nodup_iff.mp hl
  have hnodes : ∀ k : List Nat, k.Nodup →
      ((scannedFiles w k).map CcaskFile.fileId).map (scannedNode w) = scannedFiles w k := by
    intro k hk
    rw [List.map_map, List.map_congr_left (g := id), List.map_id]
    intro g hg
    obtain ⟨i, -, rfl⟩ := ((scannedFiles_spec hk hfiles).2 g).mp hg
    rfl
  have hids : (scannedFiles w l).map CcaskFile.fileId = (scannedFiles w l').map CcaskFile.fileId := by
    refine eq_of_sorted (scannedFiles_spec hl hfiles).1 (scannedFiles_spec hl' hfiles).1 fun i => ?_
    rw [(scannedFiles_ids hl hfiles).mem_iff, (scannedFiles_ids hl' hfiles).mem_iff, hperm.mem_iff]
  rw [← hnodes l hl, hids, hnodes l' hl']

theorem afterRotation_files {head : CcaskFile} {rest : List CcaskFile} (hfiles : w.files = head :: rest)
    (hsorted : (w.files.map CcaskFile.fileId).Pairwise (· > ·)) (hid : head.fileId + 1 < 2 ^ 64) :
    (afterRotation w).files =
      newFile w (head.fileId + 1) :: { head with fd := none, isActive := false } :: rest := by
  have hset := setFile_of_distinct
    (w := { w with fs := (w.fs.create (fileName (head.fileId + 1) .data)).1 }) hfiles hsorted
    fun file => { file with fd := none, isActive := false }
  simp only [afterRotation, hfiles, Nat.mod_eq_of_lt hid]
  rw [hfiles] at hset
  rw [hset]
  exact addFile_of_lt (Nat.lt_succ_self head.fileId) _

/-- The new file is the active one. -/
theorem NewestActive.rotated {head : CcaskFile} {rest : List CcaskFile} (h : NewestActive (head :: rest)) :
    NewestActive (newFile w (head.fileId + 1) :: { head with fd := none, isActive := false } :: rest) := by
  obtain ⟨hsorted, _, _, hfiles, -, -, -, hrest⟩ := h
  cases hfiles
  refine ⟨?_, _, _, rfl, rfl, rfl, rfl, ?_⟩
  · rw [List.map_cons, List.pairwise_cons]
    refine ⟨fun id hid => ?_, hsorted⟩
    obtain rfl | hid := List.mem_cons.mp hid
    · exact Nat.lt_succ_self _
    · exact Nat.lt_succ_of_lt ((List.pairwise_cons.mp hsorted).1 id hid)
  · intro f hf
    obtain rfl | hf := List.mem_cons.mp hf
    · rfl
    · exact hrest f hf

/-- The id of the file that the head points to. -/
def activeId (s : FilesState) : Option Nat := do
  let head ← s.head
  let node ← s.mem head
  some node.value.fileId

/-- Rotations, and what generators and readers do to the other files in between. -/
inductive Rotated (p₀ : Process) : List Nat → Process → Prop
  | start : Rotated p₀ [] p₀
  | rotate {created : List Nat} {p q : Process} {id : Nat} {rs rest : List Reply} :
      Rotated p₀ created p → activeId p.filesState = some id → id < 2 ^ 64 - 1 →
      Linked.ccaskFilesRotate.run rs p = .returned (.ok ()) rest q → Rotated p₀ ((id + 1) :: created) q
  | other {created : List Nat} {p : Process} {a : Nat} {g : CcaskFile → CcaskFile} {s : FilesState} {w : World} :
      Rotated p₀ created p → p.filesState.head ≠ some a →
      (∀ f, (g f).fileId = f.fileId ∧ (g f).isActive = f.isActive) →
      p.filesState.store a (fun node => { node with value := g node.value }) = some s →
      Rotated p₀ created ⟨w, s⟩

/-- The list in memory is in order, with these ids. -/
def ListInOrder (s : FilesState) (ids : List Nat) : Prop :=
  ∃ l, Represents s l ∧ NewestActive (l.map Prod.snd) ∧ idsOf l = ids

/-- A list that is in order has an active file at its head. -/
theorem Represents.activeId {s : FilesState} {a : Nat} {head : CcaskFile} {rest : List (Nat × CcaskFile)}
    (h : Represents s ((a, head) :: rest)) : Audit.activeId s = some head.fileId := by
  have ha : s.mem a = some ⟨head, first rest none, none⟩ := h.segment.1
  rw [Audit.activeId, h.head, first_cons, Option.bind_eq_bind, Option.bind_some, ha]
  rfl

theorem ListInOrder.rotate {ids : List Nat} {i : Nat} {rs rest : List Reply} (h : ListInOrder p.filesState ids)
    (hi : activeId p.filesState = some i) (hlt : i < 2 ^ 64 - 1)
    (hrun : Linked.ccaskFilesRotate.run rs p = .returned (.ok ()) rest q) :
    ListInOrder q.filesState ((i + 1) :: ids) := by
  obtain ⟨l, hrep, hactive, rfl⟩ := h
  have hsorted := hactive.1
  cases l with
  | nil => obtain ⟨-, _, _, hfiles, -⟩ := hactive; cases hfiles
  | cons y tl =>
      obtain ⟨a, head⟩ := y
      rw [hrep.activeId] at hi
      cases hi
      have hid : head.fileId + 1 < 2 ^ 64 := by omega
      have hsame : Same ((a, head) :: tl) p { p.world with files := ((a, head) :: tl).map Prod.snd } :=
        ⟨hrep, rfl⟩
      have hmarch := ccaskFilesRotate_simulates hsame (by rwa [idsOf_eq])
        fun y hy => Option.some.inj hy ▸ hid
      obtain ⟨_, v, hrun', rfl, l', hrep', hv⟩ := hmarch.returned hrun
      obtain ⟨-, ts, -, hts⟩ | ⟨hfail, -⟩ :=
        (ccaskFilesRotate_answers (A := fun _ => True)).returned (fun _ _ => trivial) hrun'
      · have hfiles : l'.map Prod.snd = _ := (congrArg World.files (hv.symm.trans hts)).trans
          (afterRotation_files (w := { p.world with files := ((a, head) :: tl).map Prod.snd }) rfl hsorted hid)
        refine ⟨l', hrep', ?_, ?_⟩
        · rw [hfiles]
          exact hactive.rotated
        · rw [idsOf_eq, hfiles, idsOf_eq]
          rfl
      · cases hfail

theorem ListInOrder.other {ids : List Nat} {s s' : FilesState} {a : Nat} {g : CcaskFile → CcaskFile}
    (h : ListInOrder s ids) (ha : s.head ≠ some a)
    (hg : ∀ f, (g f).fileId = f.fileId ∧ (g f).isActive = f.isActive)
    (hs : s.store a (fun node => { node with value := g node.value }) = some s') : ListInOrder s' ids := by
  obtain ⟨l, hrep, ⟨hsorted, head, tl, hfiles, hactive, hfd, hhint, hrest⟩, rfl⟩ := h
  by_cases hmem : a ∈ l.map Prod.fst
  · obtain ⟨⟨a, f⟩, hy, rfl⟩ := List.mem_map.mp hmem
    obtain ⟨l₁, l₂, rfl⟩ := List.append_of_mem hy
    obtain ⟨s'', hs'', hrep'⟩ := hrep.setValue g
    obtain rfl : s'' = s' := Option.some.inj (hs''.symm.trans hs)
    have hids : idsOf (l₁ ++ (a, g f) :: l₂) = idsOf (l₁ ++ (a, f) :: l₂) := by
      simp only [idsOf, List.map_append, List.map_cons, (hg f).1]
    refine ⟨_, hrep', ⟨?_, ?_⟩, hids⟩
    · rw [← idsOf_eq, hids, idsOf_eq]
      exact hsorted
    · cases l₁ with
      | nil => exact absurd hrep.head ha
      | cons y l₁ =>
          cases hfiles
          refine ⟨y.2, _, rfl, hactive, hfd, hhint, fun f' hf' => ?_⟩
          replace hf' : f' ∈ (l₁ ++ (a, g f) :: l₂).map Prod.snd := hf'
          replace hrest : ∀ f' ∈ (l₁ ++ (a, f) :: l₂).map Prod.snd, f'.isActive = false := hrest
          rw [List.map_append, List.map_cons, List.mem_append, List.mem_cons] at hf'
          rw [List.map_append, List.map_cons] at hrest
          obtain hf' | rfl | hf' := hf'
          · exact hrest f' (List.mem_append_left _ hf')
          · rw [(hg f).2]
            exact hrest f (List.mem_append_right _ List.mem_cons_self)
          · exact hrest f' (List.mem_append_right _ (List.mem_cons_of_mem _ hf'))
  · refine ⟨l, ?_, ⟨hsorted, head, tl, hfiles, hactive, hfd, hhint, hrest⟩, rfl⟩
    cases hnode : s.mem a with
    | none =>
        rw [FilesState.store, hnode] at hs
        cases hs
    | some node =>
        rw [store_eq hnode] at hs
        cases hs
        exact ⟨hrep.head, hrep.tail, hrep.segment.update hmem _, hrep.nodup, hrep.below, hrep.table⟩

theorem Rotated.listInOrder {p₀ : Process} {created ids : List Nat} (h : Rotated p₀ created p)
    (h₀ : ListInOrder p₀.filesState ids) : ListInOrder p.filesState (created ++ ids) := by
  induction h with
  | start => exact h₀
  | rotate _ hi hlt hrun ih => exact ih.rotate hi hlt hrun
  | other _ ha hg hs ih => exact ih.other ha hg hs

/-- A successful initialisation leaves the files that were found, and at most one new one. -/
theorem ListInOrder.init {threshold : UInt64} {rs rest : List Reply}
    (hids : (names.filterMap dataId).Nodup) (hmax : ∀ i ∈ names.filterMap dataId, i < 2 ^ 64 - 1)
    (hrun : (Linked.ccaskFilesInit names threshold).run rs p = .returned (.ok ()) rest q) :
    ∃ l, Represents q.filesState l ∧ NewestActive (l.map Prod.snd) ∧
      l.map Prod.snd = chosenFiles p.world
        (scannedFiles { p.world with files := [] } (statted names (rs.drop 2))) ∧
      (AllClean rs → statted names (rs.drop 2) = names.filterMap dataId) := by
  have hmax' : ∀ i ∈ names.filterMap dataId, i + 1 < 2 ^ 64 := fun i hi => by
    have := hmax i hi
    omega
  obtain ⟨_, v, hrun', rfl, hl⟩ := (ccaskFilesInit_simulates threshold p hids hmax').returned hrun
  obtain ⟨l, hrep, hv⟩ := hl rfl
  obtain ⟨hfiles, hclean⟩ := ccaskFilesInit_returned hids hmax' hrun'
  have hl' : l.map Prod.snd = chosenFiles p.world
      (scannedFiles { p.world with files := [] } (statted names (rs.drop 2))) := by
    rw [← hfiles, hv]
  refine ⟨l, hrep, ?_, hl', hclean⟩
  obtain ⟨hsorted, hmem⟩ := scannedFiles_spec (w := { p.world with files := [] })
    (hids.sublist (statted_sublist names (rs.drop 2))) rfl
  rw [hl']
  refine chosenFiles_active hsorted fun f hf => ?_
  obtain ⟨i, -, rfl⟩ := (hmem f).mp hf
  rfl

theorem Represents.unique {s : FilesState} {l' : List (Nat × CcaskFile)} (h : Represents s l)
    (h' : Represents s l') : l = l' :=
  h.segment.unique h'.segment (h.head.symm.trans h'.head)

/-- What a rotation hands over was the head before. -/
theorem ListInOrder.hands_over {ids : List Nat} {i : Nat} {rs rest : List Reply} {file : FilePtr}
    (h : ListInOrder p.filesState ids) (hi : activeId p.filesState = some i) (hlt : i < 2 ^ 64 - 1)
    (hrun : rotateFiles.run rs p = .returned (.ok file) rest q) : file = p.filesState.head := by
  obtain ⟨l, hrep, hactive, rfl⟩ := h
  cases l with
  | nil => obtain ⟨-, _, _, hfiles, -⟩ := hactive; cases hfiles
  | cons y tl =>
      rw [hrep.activeId] at hi
      cases hi
      have hmarch := rotateFiles_simulates (w := { p.world with files := (y :: tl).map Prod.snd }) ⟨hrep, rfl⟩
        (by rw [idsOf_eq]; exact hactive.1) fun y hy => by
          obtain rfl := Option.some.inj hy
          omega
      obtain ⟨b, v, -, -, hb⟩ := hmarch.returned hrun
      cases b with
      | ok next => exact hb.1
      | fail e => exact hb.elim
      | retry e => exact hb.elim

/-- Through every run of rotations the list in memory is in order, whatever the order the directory was
read in; each rotation hands over the file that was active; shutdown empties the list in any order. -/
theorem files_in_order (names : List Name) (threshold : UInt64) (p q₀ : Process) (rs rest : List Reply)
    (hids : (names.filterMap dataId).Nodup) (hmax : ∀ i ∈ names.filterMap dataId, i < 2 ^ 64 - 1)
    (hinit : (Linked.ccaskFilesInit names threshold).run rs p = .returned (.ok ()) rest q₀) :
    (AllClean rs → statted names (rs.drop 2) = names.filterMap dataId) ∧
    (∃ first, first.length ≤ 1 ∧ ∀ created q, Rotated q₀ created q →
      (∃ l, WellLinked q.filesState l ∧
        (idsOf l).Perm (created ++ first ++ statted names (rs.drop 2))) ∧
      (∀ i, activeId q.filesState = some i → i < 2 ^ 64 - 1 → ∀ rs' rest' file q',
        rotateFiles.run rs' q = .returned (.ok file) rest' q' → file = q.filesState.head) ∧
      ∀ order : List Nat, order.Perm q.filesState.hashTable → ∃ s,
        Linked.ccaskFilesShutdown order q.filesState = some s ∧ s.head = none ∧ s.tail = none ∧
          s.hashTable = []) ∧
    ∀ names' rs' rest' q₀', names'.Perm names →
      (Linked.ccaskFilesInit names' threshold).run rs' p = .returned (.ok ()) rest' q₀' →
      (statted names' (rs'.drop 2)).Perm (statted names (rs.drop 2)) →
      ∀ l l', WellLinked q₀.filesState l → WellLinked q₀'.filesState l' →
        l'.map Prod.snd = l.map Prod.snd := by
  obtain ⟨l₀, hrep₀, hactive₀, hfiles₀, hclean⟩ := ListInOrder.init hids hmax hinit
  have hnodup := hids.sublist (statted_sublist names (rs.drop 2))
  refine ⟨hclean, ?_, ?_⟩
  · obtain ⟨first, hfirst, hchosen⟩ := ids_chosenFiles p.world
      (scannedFiles { p.world with files := [] } (statted names (rs.drop 2)))
    refine ⟨first, hfirst, fun created q hrot => ?_⟩
    obtain ⟨l, hrep, hactive, hl⟩ := hrot.listInOrder ⟨l₀, hrep₀, hactive₀, rfl⟩
    have hread := (scannedFiles_ids (w := { p.world with files := [] }) hnodup rfl).append_left
      (created ++ first)
    refine ⟨⟨l, hrep.wellLinked hactive, ?_⟩, ?_, ?_⟩
    · rw [hl, idsOf_eq, hfiles₀, hchosen, ← List.append_assoc]
      exact hread
    · intro i hi hlt rs' rest' file q' hrun
      exact ListInOrder.hands_over ⟨l, hrep, hactive, hl⟩ hi hlt hrun
    · intro order horder
      obtain ⟨s, hs, hempty⟩ := hrep.shutdown (horder.trans hrep.table)
      exact ⟨s, hs, hempty.head, hempty.tail, hempty.table.eq_nil⟩
  · intro names' rs' rest' q₀' hnames hinit' hread l l' hl hl'
    have hperm := hnames.filterMap dataId
    obtain ⟨l₀', hrep₀', -, hfiles₀', -⟩ := ListInOrder.init (hperm.nodup_iff.mpr hids)
      (fun i hi => hmax i (hperm.mem_iff.mp hi)) hinit'
    rw [hl.represents.unique hrep₀, hl'.represents.unique hrep₀', hfiles₀, hfiles₀',
      scannedFiles_perm hnodup hread.symm rfl]

/-- The active file of a list that is in order. -/
theorem WellLinked.head_active {s : FilesState} (h : WellLinked s l) :
    ((s.head.bind s.mem).map fun node => node.value.isActive) = some true := by
  obtain ⟨a, head, rest, rfl, hactive, -⟩ := h.active
  have ha : s.mem a = some ⟨head, first rest none, none⟩ := h.represents.segment.1
  rw [h.represents.head, first_cons, Option.bind_some, ha, Option.map_some, hactive]

end Runs

section Sample

/-- A process with one datafile of this name in its directory. -/
def oneDatafile (name : Name) : Process where
  world := oneFile name []
  filesState := ⟨fun _ => none, 0, [], none, none⟩

def startUp (name : Name) : Outcome Process Status :=
  (Linked.ccaskFilesInit [['.'], name] 50).run (List.replicate 5 (.done 0)) (oneDatafile name)

/-- A store with one datafile is opened, and its file is rotated. -/
theorem files_in_order_one : ∃ q₀ q, startUp ['7', '.', 'd', 'a', 't', 'a'] = .returned (.ok ()) [] q₀ ∧
    Linked.ccaskFilesRotate.run (List.replicate 4 (.done 0)) q₀ = .returned (.ok ()) [] q ∧
    ∃ l, WellLinked q.filesState l ∧ (idsOf l).length ≤ 3 ∧ 8 ∈ idsOf l ∧ 7 ∈ idsOf l := by
  have hids : [['.'], ['7', '.', 'd', 'a', 't', 'a']].filterMap dataId = [7] := by decide +kernel
  have hrun : ∃ q₀ q, startUp ['7', '.', 'd', 'a', 't', 'a'] = .returned (.ok ()) [] q₀ ∧
      activeId q₀.filesState = some 7 ∧
      Linked.ccaskFilesRotate.run (List.replicate 4 (.done 0)) q₀ = .returned (.ok ()) [] q :=
    ⟨_, _, rfl, rfl, rfl⟩
  obtain ⟨q₀, q, hstart, hactive, hrotate⟩ := hrun
  obtain ⟨hclean, ⟨first, hfirst, hall⟩, -⟩ := files_in_order [['.'], ['7', '.', 'd', 'a', 't', 'a']] 50
    (oneDatafile ['7', '.', 'd', 'a', 't', 'a']) q₀ (List.replicate 5 (.done 0)) []
    (by rw [hids]; decide) (by rw [hids]; decide) hstart
  obtain ⟨⟨l, hl, hperm⟩, -⟩ := hall [8] q (.rotate .start hactive (by decide) hrotate)
  rw [hclean fun r hr => by rw [List.eq_of_mem_replicate hr]; trivial, hids] at hperm
  refine ⟨q₀, q, hstart, hrotate, l, hl, ?_, ?_, ?_⟩
  · rw [hperm.length_eq, List.length_append, List.length_append, List.length_singleton,
      List.length_singleton]
    omega
  · rw [hperm.mem_iff]
    exact List.mem_append_left _ (List.mem_append_left _ List.mem_cons_self)
  · rw [hperm.mem_iff]
    exact List.mem_append_right _ List.mem_cons_self

def minusTwo : Name := ['-', '2', '.', 'd', 'a', 't', 'a']

/-- Two rotations after the start. -/
def twoRotations : Prog Process (Status × Status) := do
  let a ← Linked.ccaskFilesRotate
  let b ← Linked.ccaskFilesRotate
  pure (a, b)

/-- `-2.data` has the id 2^64 - 2. After two rotations the newest file has the id 0 and stands at the
tail: the head is closed and not active. -/
theorem rotation_wraps : [['.'], minusTwo].filterMap dataId = [2 ^ 64 - 2] ∧
    ∃ q₀ q, startUp minusTwo = .returned (.ok ()) [] q₀ ∧
      twoRotations.run (List.replicate 8 (.done 0)) q₀ = .returned (.ok (), .ok ()) [] q ∧
      ¬ ∃ l, WellLinked q.filesState l := by
  refine ⟨by decide +kernel, _, _, rfl, rfl, ?_⟩
  rintro ⟨l, hl⟩
  have hactive := hl.head_active
  revert hactive
  decide +kernel

end Sample

end Ccask.Audit
