import SysvDev.Interleaving

namespace SysvDev.Files.UfEnter

open Function Interleaving

/-- `&flist[fd]`. Lists at different addresses have no entry in common. -/
structure Entry (A : Type) where
  flist : A
  fd : Nat
  deriving DecidableEq

structure Handle (A : Type) where
  fd : Nat
  ufp : Entry A
  deriving DecidableEq

inductive Lock (A : Type)
  | fiLock
  | ufLock (ufp : Entry A)
  deriving DecidableEq

/-- Where a thread is in `UF_ENTER`. -/
inductive Point (A : Type)
  | out
  | loop (fd : Nat)
  | mutexEnter (fd : Nat) (flist : A) (ufp : Entry A)
  | compare (fd : Nat) (flist : A) (ufp : Entry A)
  | mutexExit (fd : Nat) (ufp : Entry A)

structure Thread (A : Type) where
  point : Point A
  /-- The descriptors between `UF_ENTER` and `UF_EXIT`. -/
  entered : List (Handle A)
  /-- The locks that `flist_grow` has. -/
  taken : List (Lock A)

structure Shared (A : Type) where
  fiList : A
  locked : Lock A → Bool
  /-- The addresses that were in `fi_list` before. -/
  retired : List A

variable {T A : Type} [DecidableEq A] {nfiles : A → Nat} {t : T} {l l' : Thread A} {sh sh' : Shared A}

def Shared.set (sh : Shared A) (k : Lock A) (b : Bool) : Shared A := { sh with locked := update sh.locked k b }

/-- The steps of a thread. `nfiles` is the number of entries in the list at an
address; `UF_ENTER` is called for a descriptor that is in the current one, which
is what its `ASSERT` says. -/
inductive Act (nfiles : A → Nat) (t : T) : Thread A → Shared A → Thread A → Shared A → Prop
  -- UF_ENTER
  | call {hs : List (Handle A)} {ks : List (Lock A)} {sh : Shared A} {fd : Nat} (h : fd < nfiles sh.fiList) :
      Act nfiles t ⟨.out, hs, ks⟩ sh ⟨.loop fd, hs, ks⟩ sh
  | load {hs : List (Handle A)} {ks : List (Lock A)} {sh : Shared A} {fd : Nat} :
      Act nfiles t ⟨.loop fd, hs, ks⟩ sh ⟨.mutexEnter fd sh.fiList ⟨sh.fiList, fd⟩, hs, ks⟩ sh
  | mutexEnter {hs : List (Handle A)} {ks : List (Lock A)} {sh : Shared A} {fd : Nat} {flist : A} {ufp : Entry A}
      (h : sh.locked (.ufLock ufp) = false) :
      Act nfiles t ⟨.mutexEnter fd flist ufp, hs, ks⟩ sh ⟨.compare fd flist ufp, hs, ks⟩ (sh.set (.ufLock ufp) true)
  | compareSame {hs : List (Handle A)} {ks : List (Lock A)} {sh : Shared A} {fd : Nat} {flist : A} {ufp : Entry A}
      (h : flist = sh.fiList) :
      Act nfiles t ⟨.compare fd flist ufp, hs, ks⟩ sh ⟨.out, ⟨fd, ufp⟩ :: hs, ks⟩ sh
  | compareOther {hs : List (Handle A)} {ks : List (Lock A)} {sh : Shared A} {fd : Nat} {flist : A} {ufp : Entry A}
      (h : flist ≠ sh.fiList) :
      Act nfiles t ⟨.compare fd flist ufp, hs, ks⟩ sh ⟨.mutexExit fd ufp, hs, ks⟩ sh
  | mutexExit {hs : List (Handle A)} {ks : List (Lock A)} {sh : Shared A} {fd : Nat} {ufp : Entry A} :
      Act nfiles t ⟨.mutexExit fd ufp, hs, ks⟩ sh ⟨.loop fd, hs, ks⟩ (sh.set (.ufLock ufp) false)
  -- UF_EXIT
  | ufExit {hs : List (Handle A)} {ks : List (Lock A)} {sh : Shared A} {h : Handle A} (hin : h ∈ hs) :
      Act nfiles t ⟨.out, hs, ks⟩ sh ⟨.out, hs.erase h, ks⟩ (sh.set (.ufLock h.ufp) false)
  -- flist_grow
  | take {hs : List (Handle A)} {ks : List (Lock A)} {sh : Shared A} {k : Lock A} (h : sh.locked k = false) :
      Act nfiles t ⟨.out, hs, ks⟩ sh ⟨.out, hs, k :: ks⟩ (sh.set k true)
  | give {hs : List (Handle A)} {ks : List (Lock A)} {sh : Shared A} {k : Lock A} (h : k ∈ ks) :
      Act nfiles t ⟨.out, hs, ks⟩ sh ⟨.out, hs, ks.erase k⟩ (sh.set k false)
  | store {hs : List (Handle A)} {ks : List (Lock A)} {sh : Shared A} (newlist : A) (hfi : .fiLock ∈ ks)
      (huf : ∀ fd < nfiles sh.fiList, .ufLock ⟨sh.fiList, fd⟩ ∈ ks) (hmore : nfiles sh.fiList ≤ nfiles newlist)
      (hnew : newlist ≠ sh.fiList ∧ newlist ∉ sh.retired) :
      Act nfiles t ⟨.out, hs, ks⟩ sh ⟨.out, hs, ks⟩ { sh with fiList := newlist, retired := sh.fiList :: sh.retired }

def Initial (s : State T (Thread A) (Shared A)) : Prop :=
  (∀ t, s.loc t = ⟨.out, [], []⟩) ∧ s.shared.retired = []

/-- The lock that `UF_ENTER` has before it completes. -/
def atPoint : Point A → List (Lock A)
  | .compare _ _ ufp | .mutexExit _ ufp => [.ufLock ufp]
  | _ => []

def held (l : Thread A) : List (Lock A) := atPoint l.point ++ l.entered.map (fun h => .ufLock h.ufp) ++ l.taken

theorem act_handles (h : Act nfiles t l sh l' sh') (hfresh : ∀ k, sh.locked k = false → k ∉ held l)
    (honce : ∀ k, (held l).count k ≤ 1) : Handles held Shared.locked (fun _ => True) l sh l' sh' := by
  cases h with
  | call | load | compareSame | compareOther | store => exact .keep rfl (.refl _)
  | mutexEnter hfree => exact .take hfree rfl (hfresh _ hfree) (.refl _)
  | mutexExit => exact .give rfl (honce _) (.refl _)
  | ufExit hin => exact .give rfl (honce _) (((List.perm_cons_erase hin).map _).append_right _)
  | take hfree => exact .take hfree rfl (hfresh _ hfree) List.perm_middle
  | give hin =>
      exact .give rfl (honce _) (((List.perm_cons_erase hin).append_left _).trans List.perm_middle)

def Placed (nfiles : A → Nat) (fiList : A) : Point A → Prop
  | .out => True
  | .loop fd => fd < nfiles fiList
  | .mutexEnter fd flist ufp | .compare fd flist ufp => fd < nfiles fiList ∧ ufp = ⟨flist, fd⟩
  | .mutexExit fd _ => fd < nfiles fiList

def IsCurrent (nfiles : A → Nat) (fiList : A) (h : Handle A) : Prop :=
  h.ufp = ⟨fiList, h.fd⟩ ∧ h.fd < nfiles fiList

structure Locked (nfiles : A → Nat) (s : State T (Thread A) (Shared A)) : Prop where
  locks : Exclusive held Shared.locked (fun _ => True) s
  placed : ∀ t, Placed nfiles s.shared.fiList (s.loc t).point
  current : ∀ t, ∀ h ∈ (s.loc t).entered, IsCurrent nfiles s.shared.fiList h

variable {s₀ s : State T (Thread A) (Shared A)}

omit [DecidableEq A] in
theorem mem_held_of_entered {h : Handle A} (hin : h ∈ l.entered) : .ufLock h.ufp ∈ held l :=
  List.mem_append_left _ (List.mem_append_right _ (List.mem_map.mpr ⟨h, hin, rfl⟩))

omit [DecidableEq A] in
theorem placed_mono {fiList newlist : A} {p : Point A} (h : Placed nfiles fiList p)
    (hmore : nfiles fiList ≤ nfiles newlist) : Placed nfiles newlist p := by
  cases p with
  | out => trivial
  | loop fd => exact lt_of_lt_of_le h hmore
  | mutexEnter fd flist ufp => exact ⟨lt_of_lt_of_le h.1 hmore, h.2⟩
  | compare fd flist ufp => exact ⟨lt_of_lt_of_le h.1 hmore, h.2⟩
  | mutexExit fd ufp => exact lt_of_lt_of_le h hmore

/-- While a descriptor is entered, no thread has all locks of the current list:
its own would be held twice. -/
theorem Locked.not_all_taken (hs : Locked nfiles s) {u : T} {h : Handle A} (hin : h ∈ (s.loc u).entered) (t : T) :
    ¬ ∀ fd < nfiles s.shared.fiList, .ufLock ⟨s.shared.fiList, fd⟩ ∈ (s.loc t).taken := by
  intro hall
  obtain ⟨hufp, hfd⟩ := hs.current u h hin
  have htaken : .ufLock h.ufp ∈ (s.loc t).taken := by
    rw [hufp]
    exact hall h.fd hfd
  obtain rfl : u = t :=
    hs.locks.unique u t _ trivial (mem_held_of_entered hin) (List.mem_append_right _ htaken)
  have hentered : .ufLock h.ufp ∈ (s.loc u).entered.map (fun h => Lock.ufLock h.ufp) :=
    List.mem_map.mpr ⟨h, hin, rfl⟩
  have honce := hs.locks.once u (.ufLock h.ufp) trivial
  rw [held, List.count_append, List.count_append] at honce
  have h₁ := List.count_pos_iff.mpr hentered
  have h₂ := List.count_pos_iff.mpr htaken
  omega

theorem act_fiList (h : Act nfiles t l sh l' sh') : sh'.fiList = sh.fiList ∨
    ((∀ fd < nfiles sh.fiList, .ufLock ⟨sh.fiList, fd⟩ ∈ l.taken) ∧ nfiles sh.fiList ≤ nfiles sh'.fiList ∧ l' = l) := by
  cases h with
  | store newlist hfi huf hmore => exact .inr ⟨huf, hmore, rfl⟩
  | call | load | mutexEnter | compareSame | compareOther | mutexExit | ufExit | take | give => exact .inl rfl

theorem act_placed (h : Act nfiles t l sh l' sh') (hl : Placed nfiles sh.fiList l.point) :
    Placed nfiles sh'.fiList l'.point := by
  cases h with
  | call hfd => exact hfd
  | load => exact ⟨hl, rfl⟩
  | mutexEnter => exact hl
  | compareOther => exact hl.1
  | mutexExit => exact hl
  | compareSame | ufExit | take | give | store => trivial

theorem act_current (h : Act nfiles t l sh l' sh') (hl : Placed nfiles sh.fiList l.point)
    (hsame : sh'.fiList = sh.fiList) (hcur : ∀ h ∈ l.entered, IsCurrent nfiles sh.fiList h) :
    ∀ h ∈ l'.entered, IsCurrent nfiles sh'.fiList h := by
  rw [hsame]
  cases h with
  | compareSame hlist =>
      obtain ⟨hfd, hufp⟩ := hl
      rw [hlist] at hufp
      exact List.forall_mem_cons.mpr ⟨⟨hufp, hfd⟩, hcur⟩
  | ufExit => exact fun h hin => hcur h (List.mem_of_mem_erase hin)
  | call | load | mutexEnter | compareOther | mutexExit | take | give | store => exact hcur

variable [DecidableEq T]

theorem locked_step {loc : T → Thread A} (hs : Locked nfiles ⟨loc, sh⟩) (hact : Act nfiles t (loc t) sh l sh') :
    Locked nfiles ⟨update loc t l, sh'⟩ := by
  have hlocks := hs.locks.step (act_handles hact (fun k => hs.locks.not_mem trivial) (hs.locks.once t · trivial))
  have hplaced : Placed nfiles sh'.fiList l.point := act_placed hact (hs.placed t)
  obtain hsame | ⟨hall, hmore, rfl⟩ := act_fiList hact
  · refine ⟨hlocks, ?_, ?_⟩
    · apply forall_update (Q := fun _ (l : Thread A) => Placed nfiles sh'.fiList l.point) hplaced
      intro u _
      rw [hsame]
      exact hs.placed u
    · apply forall_update (Q := fun _ (l : Thread A) => ∀ h ∈ l.entered, IsCurrent nfiles sh'.fiList h)
      · exact act_current hact (hs.placed t) hsame (hs.current t)
      · intro u _
        rw [hsame]
        exact hs.current u
  · have hnone (u : T) (h : Handle A) (hin : h ∈ (loc u).entered) : False := hs.not_all_taken hin t hall
    refine ⟨hlocks, ?_, ?_⟩
    · apply forall_update (Q := fun _ (l : Thread A) => Placed nfiles sh'.fiList l.point) hplaced
      exact fun u _ => placed_mono (hs.placed u) hmore
    · apply forall_update (Q := fun _ (l : Thread A) => ∀ h ∈ l.entered, IsCurrent nfiles sh'.fiList h)
      · exact fun h hin => (hnone t h hin).elim
      · exact fun u _ h hin => (hnone u h hin).elim

omit [DecidableEq T] in
theorem locked_initial (h : Initial s) : Locked nfiles s := by
  have hheld (t : T) : held (s.loc t) = [] := by
    rw [h.1 t]
    rfl
  refine ⟨⟨?_, ?_, ?_⟩, ?_, ?_⟩
  · intro t k hk
    rw [hheld] at hk
    cases hk
  · intro t k _
    rw [hheld]
    exact Nat.zero_le 1
  · intro t u k _ hk
    rw [hheld] at hk
    cases hk
  · intro t
    rw [h.1 t]
    trivial
  · intro t k hk
    rw [h.1 t] at hk
    cases hk

/-- Between `UF_ENTER` and `UF_EXIT`, `ufp` is the entry of the current list, no
step changes `fi_list`, and no other thread is there for the descriptor. -/
theorem uf_enter_current (hinit : Initial s₀) (hrun : Run (Act nfiles) (fun _ => True) s₀ s) {h : Handle A}
    (hin : h ∈ (s.loc t).entered) :
    h.ufp = ⟨s.shared.fiList, h.fd⟩ ∧
      (∀ s', Step (Act nfiles) s s' → s'.shared.fiList = s.shared.fiList) ∧
      ∀ u, ∀ h' ∈ (s.loc u).entered, h'.fd = h.fd → u = t := by
  have hs : Locked nfiles s :=
    hrun.invariant (locked_initial hinit) fun t loc sh l sh' hs _ _ hact => locked_step hs hact
  refine ⟨(hs.current t h hin).1, ?_, ?_⟩
  · rintro _ ⟨u, hact⟩
    obtain hsame | ⟨hall, -, -⟩ := act_fiList hact
    · exact hsame
    · exact absurd hall (hs.not_all_taken hin u)
  · intro u h' hin' hfd
    have hufp : h'.ufp = h.ufp := by rw [(hs.current u h' hin').1, (hs.current t h hin).1, hfd]
    have hmem := mem_held_of_entered hin'
    rw [hufp] at hmem
    exact hs.locks.unique u t _ trivial hmem (mem_held_of_entered hin)

def start : State (Fin 2) (Thread Nat) (Shared Nat) := ⟨fun _ => ⟨.out, [], []⟩, ⟨0, fun _ => false, []⟩⟩

/-- The list grows after `UF_ENTER` has loaded it: the entry of the old one is
locked, left, and that of the new one locked. -/
theorem uf_enter_current_grown : ∃ s, Run (Act fun _ => 1) (fun _ => True) start s ∧ s.shared.fiList = 1 ∧
    ⟨0, ⟨1, 0⟩⟩ ∈ (s.loc 0).entered ∧ ∀ s', Step (Act fun _ => 1) s s' → s'.shared.fiList = 1 := by
  have hbegin : Run (Act fun _ => 1) (fun _ => True) start start := Relation.ReflTransGen.refl
  have hall (s : State (Fin 2) (Thread Nat) (Shared Nat)) : True := trivial
  have hload := (hbegin.next hall 0 (.call Nat.zero_lt_one)).next hall 0 .load
  have htake := (hload.next hall 1 (.take (k := .fiLock) rfl)).next hall 1 (.take (k := .ufLock ⟨0, 0⟩) rfl)
  have hstore := htake.next hall 1 (.store 1 (by decide) (by decide) le_rfl (by decide))
  have hgive := hstore.next hall 1 (.give (k := .ufLock ⟨0, 0⟩) List.mem_cons_self)
  have hold := ((hgive.next hall 0 (.mutexEnter rfl)).next hall 0 (.compareOther (by decide))).next hall 0 .mutexExit
  have hrun := ((hold.next hall 0 .load).next hall 0 (.mutexEnter rfl)).next hall 0 (.compareSame rfl)
  have hin := List.mem_cons_self (a := (⟨0, ⟨1, 0⟩⟩ : Handle Nat)) (l := [])
  exact ⟨_, hrun, rfl, hin, (uf_enter_current (t := 0) ⟨fun _ => rfl, rfl⟩ hrun hin).2.1⟩

end SysvDev.Files.UfEnter
