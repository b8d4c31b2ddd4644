import SysvDev.LinkedRing
import Mathlib.Data.BitVec

namespace SysvDev.Rpc.CallTable

open Function LinkedRing

variable {B E : Type} [DecidableEq B] [DecidableEq E]

/-- A pointer to a `call_table_t` or to a `calllist_t`. A cast between the two
leaves it as it is, and the links are the first fields of both. -/
inductive Ptr (B E : Type)
  | table (b : B)
  | call (e : E)
  deriving DecidableEq

structure Heap (B E : Type) where
  links : Links (Ptr B E)
  ctLen : B → BitVec 32
  callXid : E → BitVec 32
  callBucket : E → B

def Heap.setNext (h : Heap B E) (a v : Ptr B E) : Heap B E :=
  { h with links := { h.links with next := update h.links.next a v } }

def Heap.setPrev (h : Heap B E) (a v : Ptr B E) : Heap B E :=
  { h with links := { h.links with prev := update h.links.prev a v } }

def callTableEnter (h : Heap B E) (e : E) : Heap B E :=
  let ctp := h.callBucket e
  let h := { h with ctLen := update h.ctLen ctp (h.ctLen ctp + 1) }
  let h := h.setNext (.call e) (h.links.next (.table ctp))
  let h := h.setPrev (.call e) (.table ctp)
  let h := h.setPrev (h.links.next (.table ctp)) (.call e)
  h.setNext (.table ctp) (.call e)

def callTableRemove (h : Heap B E) (e : E) : Heap B E :=
  let ctp := h.callBucket e
  let h := { h with ctLen := update h.ctLen ctp (h.ctLen ctp - 1) }
  let h := h.setNext (h.links.prev (.call e)) (h.links.next (.call e))
  h.setPrev (h.links.next (.call e)) (h.links.prev (.call e))

/-- The loop of `call_table_find`, which goes to the end of the chain. A table
has no `call_xid`. -/
def findLoop (h : Heap B E) (ctp : B) (xid : BitVec 32) : Nat → Ptr B E → Option E → Option (Option E)
  | 0, _, _ => none
  | fuel + 1, cp, ele =>
      if cp = .table ctp then some ele
      else
        match cp with
        | .table _ => none
        | .call c => findLoop h ctp xid fuel (h.links.next cp) (if h.callXid c = xid then some c else ele)

def callTableFind (h : Heap B E) (ctp : B) (xid : BitVec 32) (fuel : Nat) : Option (Option E) :=
  findLoop h ctp xid fuel (h.links.next (.table ctp)) none

def chain (link : Ptr B E → Ptr B E) (ctp : B) : Nat → Ptr B E → Option (List E)
  | 0, _ => none
  | fuel + 1, cp =>
      if cp = .table ctp then some []
      else
        match cp with
        | .table _ => none
        | .call c => (chain link ctp fuel (link cp)).map (c :: ·)

/-- The caller sets the fields of an entry, enters it and removes it. -/
inductive Op (B E : Type)
  | assign (e : E) (bucket : B) (xid : BitVec 32)
  | enter (e : E)
  | remove (e : E)

def Op.act (h : Heap B E) : Op B E → Heap B E
  | .assign e b x => { h with callBucket := update h.callBucket e b, callXid := update h.callXid e x }
  | .enter e => callTableEnter h e
  | .remove e => callTableRemove h e

def Op.entries (live : List E) : Op B E → List E
  | .assign _ _ _ => live
  | .enter e => live ++ [e]
  | .remove e => live.erase e

/-- An entry is changed and entered only while absent and removed only while
present. -/
def Op.Allowed (live : List E) : Op B E → Prop
  | .assign e _ _ | .enter e => e ∉ live
  | .remove e => e ∈ live

def Valid : List E → List (Op B E) → Prop
  | _, [] => True
  | live, op :: ops => op.Allowed live ∧ Valid (op.entries live) ops

def bucket (h : Heap B E) (live : List E) (b : B) : List E := live.filter fun e => h.callBucket e = b

def ring (h : Heap B E) (live : List E) (b : B) : Cycle (Ptr B E) :=
  (.table b :: (bucket h live b).reverse.map .call : List (Ptr B E))

structure Represents (h : Heap B E) (live : List E) : Prop where
  nodup : live.Nodup
  rings : Rings h.links (ring h live)
  ctLen : ∀ b, h.ctLen b = BitVec.ofNat 32 (bucket h live b).length

variable {h : Heap B E} {live : List E} {e : E} {b : B}

theorem links_enter (h : Heap B E) (e : E) :
    (callTableEnter h e).links = h.links.insert (.call e) (.table (h.callBucket e)) := by
  simp [callTableEnter, Heap.setNext, Heap.setPrev, Links.insert]

theorem links_remove (h : Heap B E) (e : E) : (callTableRemove h e).links = h.links.delete (.call e) := by
  have hnext : update h.links.next (h.links.prev (.call e)) (h.links.next (.call e)) (.call e) =
      h.links.next (.call e) := by
    rw [update_apply]
    split <;> rfl
  simp [callTableRemove, Heap.setNext, Heap.setPrev, Links.delete, hnext]

section Buckets

omit [DecidableEq E] in
theorem bucket_enter (h : Heap B E) (live : List E) (e : E) :
    bucket h (live ++ [e]) = update (bucket h live) (h.callBucket e) (bucket h live (h.callBucket e) ++ [e]) := by
  funext b
  by_cases hb : b = h.callBucket e
  · simp [bucket, hb]
  · simp [bucket, update_of_ne hb, Ne.symm hb]

theorem bucket_erase (hnodup : live.Nodup) : bucket h (live.erase e) b = (bucket h live b).erase e := by
  rw [bucket, bucket, List.Nodup.erase_eq_filter hnodup, List.Nodup.erase_eq_filter (hnodup.filter _),
    List.filter_filter, List.filter_filter]
  simp only [Bool.and_comm]

theorem bucket_assign {v : B} (he : e ∉ live) :
    (live.filter fun c => update h.callBucket e v c = b) = live.filter fun c => h.callBucket c = b := by
  apply List.filter_congr
  intro c hc
  have hne : c ≠ e := by
    rintro rfl
    exact he hc
  rw [update_of_ne hne]

omit [DecidableEq E] in
theorem mem_ring_call : .call e ∈ ring h live b ↔ e ∈ live ∧ h.callBucket e = b := by
  simp [ring, bucket]

end Buckets

theorem Represents.assign (hrep : Represents h live) (he : e ∉ live) (x : BitVec 32) (v : B) :
    Represents (Op.act h (.assign e v x)) live := by
  have hbucket : bucket (Op.act h (.assign e v x)) live = bucket h live := by
    funext b
    exact bucket_assign he
  have hring : ring (Op.act h (.assign e v x)) live = ring h live := by
    funext b
    rw [ring, ring, hbucket]
  refine ⟨hrep.nodup, ?_, ?_⟩
  · rw [hring]
    exact hrep.rings
  · rw [hbucket]
    exact hrep.ctLen

theorem Represents.enter (hrep : Represents h live) (he : e ∉ live) : Represents (callTableEnter h e) (live ++ [e]) := by
  have hbucket : bucket (callTableEnter h e) (live ++ [e]) =
      update (bucket h live) (h.callBucket e) (bucket h live (h.callBucket e) ++ [e]) := bucket_enter h live e
  refine ⟨?_, ?_, ?_⟩
  · rw [List.nodup_append_comm]
    exact List.nodup_cons.mpr ⟨he, hrep.nodup⟩
  · have hring : ring (callTableEnter h e) (live ++ [e]) = update (ring h live) (h.callBucket e)
        (.table (h.callBucket e) :: .call e :: (bucket h live (h.callBucket e)).reverse.map .call : List (Ptr B E)) := by
      funext b
      by_cases hb : b = h.callBucket e
      · simp [ring, hbucket, hb]
      · simp [ring, hbucket, update_of_ne hb]
    rw [hring, links_enter]
    apply hrep.rings.insert rfl
    intro b hmem
    exact he (mem_ring_call.mp hmem).1
  · intro b
    have hlen : (callTableEnter h e).ctLen = update h.ctLen (h.callBucket e) (h.ctLen (h.callBucket e) + 1) := rfl
    rw [hbucket, hlen]
    by_cases hb : b = h.callBucket e
    · rw [hb, update_self, update_self, hrep.ctLen, List.length_append, List.length_singleton, BitVec.ofNat_add]
      rfl
    · rw [update_of_ne hb, update_of_ne hb, hrep.ctLen]

omit [DecidableEq E] in
theorem ring_split {l₁ l₂ : List E} (hsplit : bucket h live b = l₁ ++ e :: l₂) :
    ring h live b = (.call e :: (l₁.reverse.map .call ++ .table b :: l₂.reverse.map .call) : List (Ptr B E)) := by
  rw [ring, hsplit, Cycle.coe_eq_coe]
  have hrotated : (.table b :: l₂.reverse.map .call ++ .call e :: l₁.reverse.map .call : List (Ptr B E)) ~r
      .call e :: l₁.reverse.map .call ++ .table b :: l₂.reverse.map .call := List.isRotated_append
  simpa using hrotated

theorem bucket_remove (hnodup : live.Nodup) {l₁ l₂ : List E} (hsplit : bucket h live (h.callBucket e) = l₁ ++ e :: l₂) :
    bucket h (live.erase e) = update (bucket h live) (h.callBucket e) (l₁ ++ l₂) := by
  funext b
  rw [bucket_erase hnodup]
  by_cases hb : b = h.callBucket e
  · have hnotin : e ∉ l₁ := by
      have hsub : (bucket h live (h.callBucket e)).Nodup := hnodup.filter _
      rw [hsplit] at hsub
      intro he
      exact (List.nodup_append.mp hsub).2.2 e he e List.mem_cons_self rfl
    rw [hb, update_self, hsplit, List.erase_append_right _ hnotin, List.erase_cons_head]
  · rw [update_of_ne hb]
    apply List.erase_of_not_mem
    simp [bucket, Ne.symm hb]

theorem Represents.remove (hrep : Represents h live) (he : e ∈ live) : Represents (callTableRemove h e) (live.erase e) := by
  obtain ⟨l₁, l₂, hsplit⟩ : ∃ l₁ l₂, bucket h live (h.callBucket e) = l₁ ++ e :: l₂ :=
    List.append_of_mem (by simpa [bucket] using he)
  have hbucket : bucket (callTableRemove h e) (live.erase e) = update (bucket h live) (h.callBucket e) (l₁ ++ l₂) :=
    bucket_remove hrep.nodup hsplit
  refine ⟨hrep.nodup.erase e, ?_, ?_⟩
  · have hring : ring (callTableRemove h e) (live.erase e) = update (ring h live) (h.callBucket e)
        (l₁.reverse.map .call ++ .table (h.callBucket e) :: l₂.reverse.map .call : List (Ptr B E)) := by
      funext b
      by_cases hb : b = h.callBucket e
      · rw [hb, update_self, ring, hbucket, update_self, Cycle.coe_eq_coe]
        have hrotated : (.table (h.callBucket e) :: l₂.reverse.map .call ++ l₁.reverse.map .call : List (Ptr B E)) ~r
            l₁.reverse.map .call ++ .table (h.callBucket e) :: l₂.reverse.map .call := List.isRotated_append
        simpa using hrotated
      · rw [update_of_ne hb, ring, ring, hbucket, update_of_ne hb]
    rw [hring, links_remove]
    exact hrep.rings.delete (ring_split hsplit)
  · intro b
    have hlen : (callTableRemove h e).ctLen = update h.ctLen (h.callBucket e) (h.ctLen (h.callBucket e) - 1) := rfl
    rw [hbucket, hlen]
    by_cases hb : b = h.callBucket e
    · have hlength : (l₁ ++ e :: l₂).length = (l₁ ++ l₂).length + 1 := by
        simp only [List.length_append, List.length_cons]
        omega
      rw [hb, update_self, update_self, hrep.ctLen, hsplit, hlength, BitVec.ofNat_add]
      exact BitVec.add_sub_cancel _ _
    · rw [update_of_ne hb, update_of_ne hb, hrep.ctLen]

theorem Represents.act (hrep : Represents h live) {op : Op B E} (hop : op.Allowed live) :
    Represents (op.act h) (op.entries live) := by
  cases op with
  | assign e v x => exact hrep.assign hop x v
  | enter e => exact hrep.enter hop
  | remove e => exact hrep.remove hop

theorem Represents.run {ops : List (Op B E)} (hrep : Represents h live) (hvalid : Valid live ops) :
    Represents (ops.foldl Op.act h) (ops.foldl Op.entries live) := by
  induction ops generalizing h live with
  | nil => exact hrep
  | cons op ops ih => exact ih (hrep.act hvalid.1) hvalid.2

def Empty (h : Heap B E) : Prop :=
  ∀ b, h.links.next (.table b) = .table b ∧ h.links.prev (.table b) = .table b ∧ h.ctLen b = 0#32

omit [DecidableEq E] in
theorem Empty.represents (hempty : Empty h) : Represents h [] := by
  refine ⟨List.nodup_nil, ⟨?_, ?_, ?_⟩, fun b => (hempty b).2.2⟩
  · intro b
    exact (Cycle.chain_singleton _ _).mpr ⟨(hempty b).1, (hempty b).2.1⟩
  · intro b
    exact Cycle.nodup_coe_iff.mpr (List.nodup_singleton _)
  · intro b b' a hb hb'
    simp only [ring, bucket, List.filter_nil, List.reverse_nil, List.map_nil, Cycle.mem_coe_iff,
      List.mem_singleton] at hb hb'
    exact Ptr.table.inj (hb.symm.trans hb')

section Walks

variable {k : Links (Ptr B E)} {a : Ptr B E} {l : List E} {fuel : Nat}

theorem chain_walk (hjoined : (a :: (l.map .call ++ [.table b])).IsChain k.Joined) (hfuel : l.length < fuel) :
    chain k.next b fuel (k.next a) = some l := by
  induction l generalizing a fuel with
  | nil =>
      obtain ⟨fuel, rfl⟩ := Nat.exists_eq_add_one.mpr hfuel
      have hnext : k.next a = .table b := (List.isChain_pair.mp hjoined).1
      rw [hnext, chain, if_pos rfl]
  | cons c l ih =>
      obtain ⟨fuel, rfl⟩ := Nat.exists_eq_add_one.mpr (Nat.zero_lt_of_lt hfuel)
      simp only [List.map_cons, List.cons_append, List.isChain_cons_cons] at hjoined
      have hnext : k.next a = .call c := hjoined.1.1
      rw [hnext, chain, if_neg (by rintro ⟨⟩), ih hjoined.2 (Nat.lt_of_succ_lt_succ hfuel)]
      rfl

theorem findLoop_walk {xid : BitVec 32} {ele : Option E}
    (hjoined : (a :: (l.map .call ++ [.table b])).IsChain h.links.Joined) (hfuel : l.length < fuel) :
    findLoop h b xid fuel (h.links.next a) ele =
      some (l.foldl (fun ele c => if h.callXid c = xid then some c else ele) ele) := by
  induction l generalizing a fuel ele with
  | nil =>
      obtain ⟨fuel, rfl⟩ := Nat.exists_eq_add_one.mpr hfuel
      have hnext : h.links.next a = .table b := (List.isChain_pair.mp hjoined).1
      rw [hnext, findLoop, if_pos rfl]
      rfl
  | cons c l ih =>
      obtain ⟨fuel, rfl⟩ := Nat.exists_eq_add_one.mpr (Nat.zero_lt_of_lt hfuel)
      simp only [List.map_cons, List.cons_append, List.isChain_cons_cons] at hjoined
      have hnext : h.links.next a = .call c := hjoined.1.1
      rw [hnext, findLoop, if_neg (by rintro ⟨⟩)]
      exact ih hjoined.2 (Nat.lt_of_succ_lt_succ hfuel)

omit [DecidableEq B] [DecidableEq E] in
theorem foldl_reverse_eq_find {p : E → Prop} [DecidablePred p] (l : List E) :
    l.reverse.foldl (fun ele c => if p c then some c else ele) none = l.find? fun c => p c := by
  rw [List.foldl_reverse]
  induction l with
  | nil => rfl
  | cons c l ih =>
      rw [List.foldr_cons, ih, List.find?_cons]
      by_cases hc : p c <;> simp [hc]

end Walks

/-- What the links of a bucket and its length show, with enough fuel for the
walks. -/
structure Shape (h : Heap B E) (live : List E) (b : B) : Prop where
  forward : ∀ fuel, (bucket h live b).length < fuel →
    chain h.links.next b fuel (h.links.next (.table b)) = some (bucket h live b).reverse
  backward : ∀ fuel, (bucket h live b).length < fuel →
    chain h.links.prev b fuel (h.links.prev (.table b)) = some (bucket h live b)
  ctLen : h.ctLen b = BitVec.ofNat 32 (bucket h live b).length
  find : ∀ fuel, (bucket h live b).length < fuel → ∀ xid,
    callTableFind h b xid fuel = some ((bucket h live b).find? fun e => h.callXid e = xid)

theorem Represents.shape (hrep : Represents h live) (b : B) : Shape h live b := by
  have hjoined : (.table b :: ((bucket h live b).reverse.map .call ++ [.table b])).IsChain h.links.Joined :=
    hrep.rings.joined b
  have hflip : (.table b :: ((bucket h live b).map .call ++ [.table b])).IsChain h.links.flip.Joined := by
    simpa using isChain_flip hjoined
  refine ⟨fun fuel hfuel => ?_, fun fuel hfuel => chain_walk hflip hfuel, hrep.ctLen b, fun fuel hfuel xid => ?_⟩
  · exact chain_walk hjoined (by simpa using hfuel)
  · rw [callTableFind, findLoop_walk hjoined (by simpa using hfuel), foldl_reverse_eq_find]

theorem call_table_shape (h : Heap B E) (hempty : Empty h) (ops : List (Op B E)) (hvalid : Valid [] ops) (b : B) :
    Shape (ops.foldl Op.act h) (ops.foldl Op.entries []) b :=
  (hempty.represents.run hvalid).shape b

def sampleHeap : Heap (Fin 3) Nat := ⟨⟨id, id⟩, fun _ => 0#32, fun _ => 7#32, fun _ => 1⟩

theorem call_table_shape_sample : callTableFind ([.enter 4, .enter 5, .enter 6, .remove 4].foldl Op.act sampleHeap) 1 7#32 3 =
    some (some 5) :=
  (call_table_shape sampleHeap (fun _ => ⟨rfl, rfl, rfl⟩) [.enter 4, .enter 5, .enter 6, .remove 4]
    (by simp [Valid, Op.Allowed, Op.entries]) 1).find 3 (by decide) 7#32

omit [DecidableEq B] in
theorem valid_enters {l : List E} (hnodup : (live ++ l).Nodup) :
    Valid live (l.map (Op.enter (B := B))) ∧ (l.map (Op.enter (B := B))).foldl Op.entries live = live ++ l := by
  induction l generalizing live with
  | nil => exact ⟨trivial, (List.append_nil live).symm⟩
  | cons e l ih =>
      rw [List.append_cons] at hnodup ⊢
      have hfresh : e ∉ live := fun he =>
        (List.nodup_append.mp hnodup.of_append_left).2.2 e he e (List.mem_singleton_self e) rfl
      exact ⟨⟨hfresh, (ih hnodup).1⟩, (ih hnodup).2⟩

def oneBucket : Heap Unit Nat := ⟨⟨id, id⟩, fun _ => 0#32, fun _ => 0#32, fun _ => ()⟩

theorem empty_oneBucket : Empty oneBucket := fun _ => ⟨rfl, rfl, rfl⟩

theorem exists_ops (n : Nat) : ∃ ops : List (Op Unit Nat), Valid [] ops ∧
    (bucket (ops.foldl Op.act oneBucket) (ops.foldl Op.entries []) ()).length = n := by
  have hnodup : ([] ++ List.range n).Nodup := List.nodup_range
  refine ⟨(List.range n).map .enter, (valid_enters hnodup).1, ?_⟩
  rw [(valid_enters hnodup).2]
  simp [bucket]

/-- `ct_len` is a `uint_t`. -/
theorem ct_len_wraps : ∃ ops : List (Op Unit Nat), Empty oneBucket ∧ Valid [] ops ∧
    (bucket (ops.foldl Op.act oneBucket) (ops.foldl Op.entries []) ()).length = 2 ^ 32 ∧
    (ops.foldl Op.act oneBucket).ctLen () = 0#32 := by
  obtain ⟨ops, hvalid, hlength⟩ := exists_ops (2 ^ 32)
  refine ⟨ops, empty_oneBucket, hvalid, hlength, ?_⟩
  rw [(empty_oneBucket.represents.run hvalid).ctLen (), hlength]
  rfl

end SysvDev.Rpc.CallTable
