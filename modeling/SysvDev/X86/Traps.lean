import SysvDev.Inevitable
import SysvDev.X86.Strings

namespace SysvDev.X86.Traps

open Memory Machine Run Strings Inevitable Relation

variable {w n : Nat} {L : Type} [DecidableEq L] {text : List (Line L)} {resume : State w → Nat} {mark ip : Nat}
  {s t : State w} {line : Line L} {lines : List (Line L)}

/-- What is moved is addressed with an index, or as a byte. The other accesses
are to the stack and to words that are always there. -/
def isData (n : Nat) : Addr → Bool
  | .index _ _ _ _ => true
  | .base _ _ => n == 8
  | .abs _ => false

def span (s : State w) (n : Nat) : Place → List (Span w)
  | .mem a => if isData n a then [(s.addr a, n / 8)] else []
  | .reg _ => []

def reads (s : State w) : Line L → List (Span w)
  | .rep (.movs n) => if s.regs.cx = 0#w then [] else [(s.regs.si, n / 8)]
  | .op (.mov n (.place p) _) => span s n p
  | _ => []

def writes (s : State w) : Line L → List (Span w)
  | .rep (.movs n) => if s.regs.cx = 0#w then [] else [(s.regs.di, n / 8)]
  | .op (.mov n _ p) => span s n p
  | _ => []

def plainPlace (n : Nat) : Place → Bool
  | .mem a => !isData n a
  | .reg _ => true

def plain : Line L → Bool
  | .rep _ => false
  | .op (.mov n (.place p) dst) => plainPlace n p && plainPlace n dst
  | .op (.mov n (.imm _) dst) => plainPlace n dst
  | _ => true

theorem span_plain {p : Place} (h : plainPlace n p = true) : span s n p = [] := by
  cases p with
  | reg r => rfl
  | mem a =>
      have hdata : isData n a = false := by simpa [plainPlace] using h
      rw [span, hdata]
      rfl

omit [DecidableEq L] in
theorem reads_plain (h : plain line = true) : reads s line = [] := by
  unfold reads
  split
  · cases h
  · next n p dst =>
      rw [plain, Bool.and_eq_true] at h
      exact span_plain h.1
  · rfl

omit [DecidableEq L] in
theorem writes_plain (h : plain line = true) : writes s line = [] := by
  unfold writes
  split
  · cases h
  · next n src p =>
      cases src with
      | imm v => exact span_plain h
      | place q =>
          rw [plain, Bool.and_eq_true] at h
          exact span_plain h.2
  · rfl

omit [DecidableEq L] in
theorem reads_rep_done (h : s.regs.cx = 0#w) : reads s (.rep (.movs n) : Line L) = [] := by
  rw [reads, if_pos h]

omit [DecidableEq L] in
theorem writes_rep_done (h : s.regs.cx = 0#w) : writes s (.rep (.movs n) : Line L) = [] := by
  rw [writes, if_pos h]

omit [DecidableEq L] in
theorem reads_rep (h : s.regs.cx ≠ 0#w) : reads s (.rep (.movs n) : Line L) = [(s.regs.si, n / 8)] := by
  rw [reads, if_neg h]

omit [DecidableEq L] in
theorem writes_rep (h : s.regs.cx ≠ 0#w) : writes s (.rep (.movs n) : Line L) = [(s.regs.di, n / 8)] := by
  rw [writes, if_neg h]

/-- A point of a run that may fault: with the number of the last fault, and
with how often the line at a place of interest has been run. -/
structure Point (w : Nat) where
  cfg : Cfg w
  errno : Option (BitVec 32)
  rounds : Nat

namespace Point

def reads (text : List (Line L)) (p : Point w) : List (Span w) :=
  match text[p.cfg.ip]? with
  | none => []
  | some line => Traps.reads p.cfg.state line

def writes (text : List (Line L)) (p : Point w) : List (Span w) :=
  match text[p.cfg.ip]? with
  | none => []
  | some line => Traps.writes p.cfg.state line

omit [DecidableEq L] in
theorem reads_eq (hline : text[ip]? = some line) {e : Option (BitVec 32)} {r : Nat} :
    reads text ⟨⟨ip, s⟩, e, r⟩ = Traps.reads s line := by
  simp only [reads, hline]

omit [DecidableEq L] in
theorem writes_eq (hline : text[ip]? = some line) {e : Option (BitVec 32)} {r : Nat} :
    writes text ⟨⟨ip, s⟩, e, r⟩ = Traps.writes s line := by
  simp only [writes, hline]

/-- The handler goes on at `resume` with the number of the fault as the
result. -/
def trapped (resume : State w → Nat) (p : Point w) (e : BitVec 32) : Point w :=
  ⟨⟨resume p.cfg.state, { p.cfg.state with regs := { p.cfg.state.regs with ax := e.setWidth w } }⟩, some e, p.rounds⟩

end Point

/-- The steps of the machine, where every access to data may fault. -/
inductive TrapStep (text : List (Line L)) (resume : State w → Nat) (mark : Nat) : Point w → Point w → Prop
  | step {p : Point w} {d : Cfg w} (h : next text p.cfg = some d) :
      TrapStep text resume mark p ⟨d, p.errno, if p.cfg.ip = mark then p.rounds + 1 else p.rounds⟩
  | trap {p : Point w} {e : BitVec 32} (h : p.reads text ≠ [] ∨ p.writes text ≠ []) (he : 0 < e.toInt) :
      TrapStep text resume mark p (p.trapped resume e)

theorem TrapStep.ip_lt {p q : Point w} (h : TrapStep text resume mark p q) : p.cfg.ip < text.length := by
  by_contra hge
  have hnone : text[p.cfg.ip]? = none := List.getElem?_eq_none (Nat.le_of_not_lt hge)
  cases h with
  | step hnext =>
      rw [next, hnone] at hnext
      cases hnext
  | trap hdata _ =>
      rw [Point.reads, Point.writes, hnone] at hdata
      exact hdata.elim (absurd rfl) (absurd rfl)

omit [DecidableEq L] in
theorem line_of_data (h : reads s line ≠ [] ∨ writes s line ≠ []) :
    (∃ n, line = .rep (.movs n)) ∨ ∃ n a b, line = .op (.mov n a b) := by
  rcases h with h | h
  · unfold reads at h
    split at h
    · exact .inl ⟨_, rfl⟩
    · exact .inr ⟨_, _, _, rfl⟩
    · exact absurd rfl h
  · unfold writes at h
    split at h
    · exact .inl ⟨_, rfl⟩
    · exact .inr ⟨_, _, _, rfl⟩
    · exact absurd rfl h

/-- What may fault may also go well. -/
theorem TrapStep.exists_next {p q : Point w} (h : TrapStep text resume mark p q) : ∃ d, next text p.cfg = some d := by
  cases h with
  | step hnext => exact ⟨_, hnext⟩
  | trap hdata _ =>
      rw [Point.reads, Point.writes] at hdata
      rw [next]
      cases hline : text[p.cfg.ip]? with
      | none =>
          rw [hline] at hdata
          exact absurd rfl (hdata.elim id id)
      | some line =>
          rw [hline] at hdata
          obtain ⟨n, rfl⟩ | ⟨n, a, b, rfl⟩ := line_of_data hdata
          · simp only [Option.bind_some, execLine]
            split <;> exact ⟨_, rfl⟩
          · exact ⟨_, rfl⟩

variable {Q P : Point w → Prop} {e : Option (BitVec 32)} {r : Nat} {d : Cfg w}

theorem exists_end_without_fault {p : Point w} (h : Until (TrapStep text resume mark) Q P p) (hp : p.errno = none) :
    ∃ q, ReflTransGen (TrapStep text resume mark) p q ∧ P q ∧ q.errno = none := by
  induction h with
  | here h => exact ⟨_, .refl, h, hp⟩
  | next _ hex _ ih =>
      obtain ⟨b, hb⟩ := hex
      obtain ⟨d, hd⟩ := hb.exists_next
      obtain ⟨q, hq, hPq⟩ := ih _ (.step hd) hp
      exact ⟨q, .head (.step hd) hq, hPq⟩

theorem until_next (hnext : next text ⟨ip, s⟩ = some d) (hQ : Q ⟨⟨ip, s⟩, e, r⟩ ∨ P ⟨⟨ip, s⟩, e, r⟩)
    (hfault : (Point.reads text ⟨⟨ip, s⟩, e, r⟩ ≠ [] ∨ Point.writes text ⟨⟨ip, s⟩, e, r⟩ ≠ []) →
      ∀ e', 0 < e'.toInt → Until (TrapStep text resume mark) Q P (Point.trapped resume ⟨⟨ip, s⟩, e, r⟩ e'))
    (h : Until (TrapStep text resume mark) Q P ⟨d, e, if ip = mark then r + 1 else r⟩) :
    Until (TrapStep text resume mark) Q P ⟨⟨ip, s⟩, e, r⟩ := by
  rcases hQ with hQ | hP
  · refine .next hQ ⟨_, .step hnext⟩ fun b hb => ?_
    cases hb with
    | step hstep =>
        rw [hnext] at hstep
        obtain rfl := Option.some.inj hstep
        exact h
    | trap hdata he => exact hfault hdata _ he
  · exact .here hP

theorem until_plain (hline : text[ip]? = some line) (hplain : plain line = true) (hnext : next text ⟨ip, s⟩ = some d)
    (hQ : Q ⟨⟨ip, s⟩, e, r⟩ ∨ P ⟨⟨ip, s⟩, e, r⟩) (hmark : ip ≠ mark)
    (h : Until (TrapStep text resume mark) Q P ⟨d, e, r⟩) : Until (TrapStep text resume mark) Q P ⟨⟨ip, s⟩, e, r⟩ := by
  apply until_next hnext hQ
  · rw [Point.reads_eq hline, Point.writes_eq hline, reads_plain hplain, writes_plain hplain]
    simp
  · rwa [if_neg hmark]

theorem until_lines (hat : At text ip lines) (hplain : lines.all plain = true)
    (hQ : ∀ i t, ip ≤ i → i < ip + lines.length → Q ⟨⟨i, t⟩, e, r⟩ ∨ P ⟨⟨i, t⟩, e, r⟩)
    (hmark : mark < ip ∨ ip + lines.length ≤ mark)
    (hrun : ∃ d, run text ip s lines = some d ∧ Until (TrapStep text resume mark) Q P ⟨d, e, r⟩) :
    Until (TrapStep text resume mark) Q P ⟨⟨ip, s⟩, e, r⟩ := by
  obtain ⟨d, hd, h⟩ := hrun
  induction lines generalizing ip s with
  | nil =>
      obtain rfl := Option.some.inj hd
      exact h
  | cons line lines ih =>
      rw [List.all_cons, Bool.and_eq_true] at hplain
      rw [List.length_cons] at hQ hmark
      have hline : text[ip]? = some line := hat.head
      have hnext : next text ⟨ip, s⟩ = (execLine text ip s line).map fun r => ⟨r.2.getD (ip + 1), r.1⟩ := by
        simp only [next, hline, Option.bind_some]
      have hfirst := hQ ip s le_rfl (by omega)
      rw [run] at hd
      split at hd
      · cases hd
      · next t hexec =>
          rw [hexec] at hnext
          have hrest : Until (TrapStep text resume mark) Q P ⟨⟨ip + 1, t⟩, e, r⟩ :=
            ih hat.tail hplain.2 (fun i t hi hlt => hQ i t (by omega) (by omega)) (by omega) hd
          exact until_plain hline hplain.1 hnext hfirst (by omega) hrest
      · next t target hexec =>
          rw [hexec] at hnext
          obtain rfl := Option.some.inj hd
          exact until_plain hline hplain.1 hnext hfirst (by omega) h

/-- Every access is one to the `cnt` bytes at `a`. -/
def Within (a : BitVec w) (cnt : Nat) (l : List (Span w)) : Prop :=
  ∀ x ∈ l, ∃ k, x.1 = a + BitVec.ofNat w k ∧ k + x.2 ≤ cnt

/-- The data is read from `src` and written to `dst`. -/
def Confined (text : List (Line L)) (src dst : BitVec w) (cnt : Nat) (p : Point w) : Prop :=
  Within src cnt (p.reads text) ∧ Within dst cnt (p.writes text)

/-- The only access is one to the `u` bytes at `k`. -/
structure Touches (text : List (Line L)) (src dst : BitVec w) (k u : Nat) (p : Point w) : Prop where
  reads : p.reads text = [] ∨ p.reads text = [(src + BitVec.ofNat w k, u)]
  writes : p.writes text = [] ∨ p.writes text = [(dst + BitVec.ofNat w k, u)]

/-- At every point of a copy of `cnt` bytes but at `except` the run may go on,
or it has come to its end. Up to `rlim` bytes are read and up to `wlim` are
written, the bytes one after the other and each read before it is written. -/
def Permits (text : List (Line L)) (src dst : BitVec w) (cnt rlim wlim except : Nat) (Q P : Point w → Prop) : Prop :=
  ∀ p k u, p.cfg.ip ≠ except → Touches text src dst k u p → k + u ≤ cnt →
    k ≤ rlim → (p.reads text = [] → k + u ≤ rlim) → (p.writes text ≠ [] → k ≤ wlim) →
    (Q p ∧ k + u ≤ rlim ∧ (p.writes text ≠ [] → k + u ≤ wlim)) ∨ P p

section Permits

variable {src dst : BitVec w} {cnt rlim wlim lim except k u : Nat} {p : Point w}

omit [DecidableEq L] in
theorem within_of_single {a : BitVec w} {l : List (Span w)} (h : l = [] ∨ l = [(a + BitVec.ofNat w k, u)])
    (hk : k + u ≤ cnt) : Within a cnt l := by
  intro x hx
  rcases h with rfl | rfl
  · cases hx
  · rw [List.mem_singleton] at hx
    subst hx
    exact ⟨k, rfl, hk⟩

omit [DecidableEq L] in
theorem Touches.confined (h : Touches text src dst k u p) (hk : k + u ≤ cnt) : Confined text src dst cnt p :=
  ⟨within_of_single h.reads hk, within_of_single h.writes hk⟩

omit [DecidableEq L] in
theorem permits_confined (hQ : ∀ p : Point w, p.cfg.ip ≠ except → Confined text src dst cnt p → Q p) :
    Permits text src dst cnt cnt cnt except Q P :=
  fun p _ _ hip htouch hk _ _ _ => .inl ⟨hQ p hip (htouch.confined hk), hk, fun _ => hk⟩

omit [DecidableEq L] in
/-- Up to the first access that reads a byte from `lim` on. -/
theorem permits_reads (hP : ∀ p k u, k ≤ lim → lim < k + u → p.reads text = [(src + BitVec.ofNat w k, u)] → P p) :
    Permits text src dst cnt lim lim except (fun _ => True) P := by
  intro p k u _ htouch _ hk hread _
  by_cases hlim : k + u ≤ lim
  · exact .inl ⟨trivial, hlim, fun _ => hlim⟩
  · rcases htouch.reads with hr | hr
    · exact absurd (hread hr) hlim
    · exact .inr (hP p k u hk (by omega) hr)

omit [DecidableEq L] in
theorem permits_writes (hP : ∀ p k u, k ≤ lim → lim < k + u → p.writes text = [(dst + BitVec.ofNat w k, u)] → P p) :
    Permits text src dst cnt cnt lim except (fun _ => True) P := by
  intro p k u _ htouch hcnt _ _ hwrite
  by_cases hlim : p.writes text ≠ [] → k + u ≤ lim
  · exact .inl ⟨trivial, hcnt, hlim⟩
  · have hne : p.writes text ≠ [] := fun h => hlim (absurd h)
    have hlt : ¬ k + u ≤ lim := fun h => hlim fun _ => h
    exact .inr (hP p k u (hwrite hne) (by omega) (htouch.writes.resolve_left hne))

omit [DecidableEq L] in
theorem Permits.nil (h : Permits text src dst cnt rlim wlim except Q P) (hip : p.cfg.ip ≠ except)
    (hr : p.reads text = []) (hw : p.writes text = []) : Q p ∨ P p :=
  (h p 0 0 hip ⟨.inl hr, .inl hw⟩ (Nat.zero_le _) (Nat.zero_le _) (fun _ => Nat.zero_le _) (fun _ => Nat.zero_le _)).imp
    (fun h => h.1) id

theorem until_run (hat : At text ip lines) (h : Permits text src dst cnt rlim wlim except Q P)
    (hplain : lines.all plain = true) (hexcept : except < ip ∨ ip + lines.length ≤ except)
    (hmark : mark < ip ∨ ip + lines.length ≤ mark)
    (hrun : ∃ d, run text ip s lines = some d ∧ Until (TrapStep text resume mark) Q P ⟨d, e, r⟩) :
    Until (TrapStep text resume mark) Q P ⟨⟨ip, s⟩, e, r⟩ := by
  apply until_lines hat hplain _ hmark hrun
  intro i t hi hlt
  obtain ⟨line, hmem, hline⟩ : ∃ line, line ∈ lines ∧ text[i]? = some line := by
    obtain ⟨rest, hrest⟩ := hat
    have hlen : i - ip < lines.length := by omega
    have hget : lines[i - ip]? = text[i]? := by
      rw [← List.getElem?_append_left hlen, hrest, List.getElem?_drop, Nat.add_sub_cancel' hi]
    exact ⟨lines[i - ip], List.getElem_mem hlen, hget.symm.trans (List.getElem?_eq_getElem hlen)⟩
  have hline' := List.all_eq_true.mp hplain line hmem
  have hip : i ≠ except := by omega
  apply h.nil hip
  · rw [Point.reads_eq hline, reads_plain hline']
  · rw [Point.writes_eq hline, writes_plain hline']

theorem until_mark {l : L} (hline : text[ip]? = some (.label l))
    (hpermits : Permits text src dst cnt rlim wlim except Q P) (hexcept : ip ≠ except) (hmark : ip = mark)
    (h : Until (TrapStep text resume mark) Q P ⟨⟨ip + 1, s⟩, e, r + 1⟩) :
    Until (TrapStep text resume mark) Q P ⟨⟨ip, s⟩, e, r⟩ := by
  have hreads : Point.reads text ⟨⟨ip, s⟩, e, r⟩ = [] := Point.reads_eq hline
  have hwrites : Point.writes text ⟨⟨ip, s⟩, e, r⟩ = [] := Point.writes_eq hline
  apply until_next (d := ⟨ip + 1, s⟩) _ (hpermits.nil hexcept hreads hwrites)
  · rw [hreads, hwrites]
    simp
  · rwa [if_pos hmark]
  · rw [next, hline]
    rfl

variable {a : Addr} {x : Reg}

theorem until_load (hline : text[ip]? = some (.op (.mov n (.place (.mem a)) (.reg x)))) (hdata : isData n a = true)
    (hpermits : Permits text src dst cnt rlim wlim except Q P) (hexcept : ip ≠ except) (hmark : ip ≠ mark)
    (haddr : s.addr a = src + BitVec.ofNat w k) (hk : k + n / 8 ≤ cnt) (hrlim : k ≤ rlim)
    (hfault : ∀ e', 0 < e'.toInt → Until (TrapStep text resume mark) Q P (Point.trapped resume ⟨⟨ip, s⟩, e, r⟩ e'))
    (h : k + n / 8 ≤ rlim → Until (TrapStep text resume mark) Q P
      ⟨⟨ip + 1, s.setReg x (load n s.mem (src + BitVec.ofNat w k))⟩, e, r⟩) :
    Until (TrapStep text resume mark) Q P ⟨⟨ip, s⟩, e, r⟩ := by
  have hreads : Point.reads text ⟨⟨ip, s⟩, e, r⟩ = [(src + BitVec.ofNat w k, n / 8)] := by
    rw [Point.reads_eq hline, reads, span, if_pos hdata, haddr]
  have hwrites : Point.writes text ⟨⟨ip, s⟩, e, r⟩ = [] := Point.writes_eq hline
  have hread : Point.reads text ⟨⟨ip, s⟩, e, r⟩ = [] → k + n / 8 ≤ rlim := by
    rw [hreads]
    exact fun h => by cases h
  have hnext : next text ⟨ip, s⟩ = some ⟨ip + 1, s.setReg x (load n s.mem (src + BitVec.ofNat w k))⟩ := by
    rw [next, hline, ← haddr]
    rfl
  rcases hpermits _ k (n / 8) hexcept ⟨.inr hreads, .inl hwrites⟩ hk hrlim hread (absurd hwrites) with ⟨hQ, hle, _⟩ | hP
  · apply until_next hnext (.inl hQ) (fun _ => hfault)
    rw [if_neg hmark]
    exact h hle
  · exact .here hP

theorem until_store (hline : text[ip]? = some (.op (.mov n (.place (.reg x)) (.mem a)))) (hdata : isData n a = true)
    (hpermits : Permits text src dst cnt rlim wlim except Q P) (hexcept : ip ≠ except) (hmark : ip ≠ mark)
    (haddr : s.addr a = dst + BitVec.ofNat w k) (hk : k + n / 8 ≤ cnt) (hrlim : k + n / 8 ≤ rlim) (hwlim : k ≤ wlim)
    (hfault : ∀ e', 0 < e'.toInt → Until (TrapStep text resume mark) Q P (Point.trapped resume ⟨⟨ip, s⟩, e, r⟩ e'))
    (h : k + n / 8 ≤ wlim → Until (TrapStep text resume mark) Q P
      ⟨⟨ip + 1, { s with mem := store s.mem (dst + BitVec.ofNat w k) (s.read n (.reg x)) }⟩, e, r⟩) :
    Until (TrapStep text resume mark) Q P ⟨⟨ip, s⟩, e, r⟩ := by
  have hreads : Point.reads text ⟨⟨ip, s⟩, e, r⟩ = [] := Point.reads_eq hline
  have hwrites : Point.writes text ⟨⟨ip, s⟩, e, r⟩ = [(dst + BitVec.ofNat w k, n / 8)] := by
    rw [Point.writes_eq hline, writes, span, if_pos hdata, haddr]
  have hne : Point.writes text ⟨⟨ip, s⟩, e, r⟩ ≠ [] := by
    rw [hwrites]
    exact fun h => by cases h
  have hnext : next text ⟨ip, s⟩ =
      some ⟨ip + 1, { s with mem := store s.mem (dst + BitVec.ofNat w k) (s.read n (.reg x)) }⟩ := by
    rw [next, hline, ← haddr]
    rfl
  rcases hpermits _ k (n / 8) hexcept ⟨.inl hreads, .inr hwrites⟩ hk (Nat.le_of_add_right_le hrlim) (fun _ => hrlim)
    (fun _ => hwlim) with ⟨hQ, _, hle⟩ | hP
  · apply until_next hnext (.inl hQ) (fun _ => hfault)
    rw [if_neg hmark]
    exact h (hle hne)
  · exact .here hP

end Permits

section Rep

variable {ax cx dx bx sp bp src dst : BitVec w} {hi : HighRegs w} {fl : Flags} {m₀ m : Mem w}
  {cnt rlim wlim except k : Nat}

/-- `rep movs` upwards, which may fault each time. -/
theorem until_rep (hat : At text ip (.rep (.movs n) :: lines)) (hn : 8 * (n / 8) = n)
    (hexcept : ip ≠ except) (hmark : ip ≠ mark) (hcnt : cnt ≤ 2 ^ w)
    (hpermits : Permits text src dst cnt rlim wlim except Q P)
    (hfault : ∀ cx' si' di' k' m' e', Progress m₀ src dst cnt k' m' → k' ≤ wlim → 0 < e'.toInt →
      Until (TrapStep text resume mark) Q P
        (Point.trapped resume ⟨⟨ip, ⟨⟨ax, cx', dx, bx, sp, bp, si', di', hi⟩, fl, false, m'⟩⟩, e, r⟩ e'))
    (hend : ∀ k' m', k' = k + cx.toNat * (n / 8) → Progress m₀ src dst cnt k' m' → k' ≤ rlim → k' ≤ wlim →
      Until (TrapStep text resume mark) Q P ⟨⟨ip + 1, ⟨⟨ax, 0#w, dx, bx, sp, bp, src + BitVec.ofNat w k',
        dst + BitVec.ofNat w k', hi⟩, fl, false, m'⟩⟩, e, r⟩)
    (hm : Progress m₀ src dst cnt k m) (hk : k + cx.toNat * (n / 8) ≤ cnt) (hrlim : k ≤ rlim) (hwlim : k ≤ wlim) :
    Until (TrapStep text resume mark) Q P ⟨⟨ip, ⟨⟨ax, cx, dx, bx, sp, bp, src + BitVec.ofNat w k,
      dst + BitVec.ofNat w k, hi⟩, fl, false, m⟩⟩, e, r⟩ := by
  have hline : text[ip]? = some (.rep (.movs n)) := hat.head
  induction hj : cx.toNat generalizing cx k m with
  | zero =>
      obtain rfl : cx = 0#w := BitVec.eq_of_toNat_eq (hj.trans (by simp))
      have hreads (s : State w) (hs : s.regs.cx = 0#w) : Point.reads text ⟨⟨ip, s⟩, e, r⟩ = [] :=
        (Point.reads_eq hline).trans (reads_rep_done hs)
      have hwrites (s : State w) (hs : s.regs.cx = 0#w) : Point.writes text ⟨⟨ip, s⟩, e, r⟩ = [] :=
        (Point.writes_eq hline).trans (writes_rep_done hs)
      apply until_next (d := ⟨ip + 1, _⟩)
      · simp only [next, hline, Option.bind_some, execLine, if_true]
        rfl
      · exact hpermits.nil hexcept (hreads _ rfl) (hwrites _ rfl)
      · rw [hreads _ rfl, hwrites _ rfl]
        simp
      · rw [if_neg hmark]
        exact hend k m (by rw [hj, Nat.zero_mul, Nat.add_zero]) hm hrlim hwlim
  | succ j ih =>
      have hne : cx ≠ 0#w := by
        rintro rfl
        simp at hj
      rw [hj, Nat.succ_mul] at hk
      have hlt := cx.isLt
      have hone : (cx - 1#w).toNat = j := by
        have hnat : (1#w).toNat = 1 := by rw [BitVec.toNat_ofNat, Nat.mod_eq_of_lt (by omega)]
        rw [BitVec.toNat_sub_of_le (BitVec.le_def.mpr (by omega)), hnat, hj, Nat.add_sub_cancel]
      have hunit (a : BitVec w) : a + BitVec.ofNat w k + BitVec.ofNat w (n / 8) = a + BitVec.ofNat w (k + n / 8) := by
        rw [BitVec.add_assoc, ← BitVec.ofNat_add]
      have hreads := (Point.reads_eq hline (e := e) (r := r)).trans (reads_rep
        (s := ⟨⟨ax, cx, dx, bx, sp, bp, src + BitVec.ofNat w k, dst + BitVec.ofNat w k, hi⟩, fl, false, m⟩) hne)
      have hwrites := (Point.writes_eq hline (e := e) (r := r)).trans (writes_rep
        (s := ⟨⟨ax, cx, dx, bx, sp, bp, src + BitVec.ofNat w k, dst + BitVec.ofNat w k, hi⟩, fl, false, m⟩) hne)
      rcases hpermits _ k (n / 8) hexcept ⟨.inr hreads, .inr hwrites⟩ (by omega) hrlim
        (fun h => by rw [hreads] at h; cases h) (fun _ => hwlim) with ⟨hQ, hrlim', hwlim'⟩ | hP
      · specialize hwlim' (by rw [hwrites]; simp)
        apply until_next (next_rep hline hne) (.inl hQ)
        · intro _ e' he'
          exact hfault _ _ _ k m e' hm hwlim he'
        · rw [if_neg hmark]
          simp only [State.movs, hunit, Bool.false_eq_true, if_false]
          apply ih _ (hm.store hn hm le_rfl (by omega) hcnt) _ hrlim' hwlim' hone
          · intro k' m' hk' hm'
            apply hend k' m' _ hm'
            rw [hk', hone, hj, Nat.succ_mul]
            omega
          · rw [hone]
            omega
      · exact .here hP

theorem until_rep_zero (hat : At text ip (.rep (.movs n) :: lines)) (hn : 8 * (n / 8) = n)
    (hexcept : ip ≠ except) (hmark : ip ≠ mark) (hcnt : cnt ≤ 2 ^ w)
    (hpermits : Permits text src dst cnt rlim wlim except Q P)
    (hfault : ∀ cx' si' di' k' m' e', Progress m src dst cnt k' m' → k' ≤ wlim → 0 < e'.toInt →
      Until (TrapStep text resume mark) Q P
        (Point.trapped resume ⟨⟨ip, ⟨⟨ax, cx', dx, bx, sp, bp, si', di', hi⟩, fl, false, m'⟩⟩, e, r⟩ e'))
    (hend : ∀ k' m', k' = cx.toNat * (n / 8) → Progress m src dst cnt k' m' → k' ≤ rlim → k' ≤ wlim →
      Until (TrapStep text resume mark) Q P ⟨⟨ip + 1, ⟨⟨ax, 0#w, dx, bx, sp, bp, src + BitVec.ofNat w k',
        dst + BitVec.ofNat w k', hi⟩, fl, false, m'⟩⟩, e, r⟩)
    (hk : cx.toNat * (n / 8) ≤ cnt) :
    Until (TrapStep text resume mark) Q P ⟨⟨ip, ⟨⟨ax, cx, dx, bx, sp, bp, src, dst, hi⟩, fl, false, m⟩⟩, e, r⟩ := by
  have h := until_rep (k := 0) hat hn hexcept hmark hcnt hpermits hfault
    (fun k' m' hk' => hend k' m' (hk'.trans (Nat.zero_add _))) (Progress.zero m src dst cnt) (by omega)
    (Nat.zero_le _) (Nat.zero_le _)
  rwa [BitVec.add_zero, BitVec.add_zero] at h

end Rep

end SysvDev.X86.Traps
