import TapeTorus.Proofs.Loops.Code
import TapeTorus.Proofs.TickRange

/-!
# Bracket loops are while loops

A run from the start of a program jumps from bracket to bracket on its live tape.
As long as no write changes what the cells of that tape do, it has the effect of
the structured execution of the code on the tape, in which a loop repeats its
body while the cell under head 0 is not zero.  The two are compared instruction
by instruction: a run that stands in front of a piece of code leads to the same
run behind it.
-/

namespace TapeTorus

open TapeTorus.Bracket

/-! ## Structured execution -/

/-- The execution of code from heads and cells to heads and cells, with the number
of instructions that it costs: one for each simple byte and for each test of a
loop.  A loop is tested on entry and again after each pass. -/
inductive Code.Runs (m : Machine) (program : Nat) :
    Code → Registers → Store → Nat → Registers → Store → Prop
  | done {r s} : Runs m program .done r s 0 r s
  | simple {byte plain rest r s r₁ s₁ k r' s'} :
    m.act program r s (Instruction.ofByte? byte) = .ok (r₁, s₁) →
      Runs m program rest r₁ s₁ k r' s' →
        Runs m program (.simple byte plain rest) r s (k + 1) r' s'
  | skip {body rest r s k r' s'} :
    s.cell program r.head0.toNat = 0 →
      Runs m program rest r s k r' s' →
        Runs m program (.loop body rest) r s (k + 1) r' s'
  | enter {body rest r s k₁ r₁ s₁ k₂ r' s'} :
    s.cell program r.head0.toNat ≠ 0 →
      Runs m program body r s k₁ r₁ s₁ →
        Runs m program (.loop body rest) r₁ s₁ k₂ r' s' →
          Runs m program (.loop body rest) r s (k₁ + 1 + k₂) r' s'

namespace Store

/-- The tape of the program has the length of `tape`, and its cells have the same
effects. -/
def Shows (s : Store) (program : Nat) (tape : List UInt8) : Prop :=
  s.tapeLength = tape.length ∧
    ∀ o < tape.length,
      Instruction.ofByte? (s.cell program o) = Instruction.ofByte? (tape.getD o 0)

private theorem shows_of_disassemble {s : Store} {program : Nat} {tape : List UInt8}
    (hp : program < s.programs)
    (h : ∀ now, s.programBytes program = .ok now →
      Instruction.disassemble now = Instruction.disassemble tape) : s.Shows program tape := by
  have hlistings := String.ofList_injective (h _ (s.programBytes_eq_ok hp))
  rw [List.map_map] at hlistings
  have hlength : s.tapeLength = tape.length := by
    simpa using congrArg List.length hlistings
  refine ⟨hlength, fun o ho => Instruction.ofByte?_eq_of_listing ?_⟩
  have hcell := congrArg (fun l => l[o]?) hlistings
  simpa [hlength, ho] using hcell

end Store

/-! ## Runs between two points -/

/-- Where a run stands.  The position may be that behind the last cell, and the
pointer among the registers is ignored. -/
structure Point where
  position : Nat
  registers : Registers
  store : Store

namespace Machine

variable {m : Machine} {program : Nat} {tape : List UInt8}

/-- Goes on with a run; behind the last cell it is over. -/
def resume (m : Machine) (program budget done : Nat) (x : Point) : Except Fault Turn :=
  if x.position = x.store.tapeLength then
    .ok ⟨⟨done, 1, 0⟩, { x.registers with ip := 0 }, x.store⟩
  else m.runFrom program budget done { x.registers with ip := .ofNat x.position } x.store

/-- A run from `x` stands at `y` after `k` instructions. -/
def Leads (m : Machine) (program k : Nat) (x y : Point) : Prop :=
  ∀ budget done, m.resume program (k + budget) done x = m.resume program budget (done + k) y

theorem Leads.refl (x : Point) : m.Leads program 0 x x := by
  intro budget done
  rw [Nat.zero_add, Nat.add_zero]

theorem Leads.trans {x y z : Point} {j k : Nat} (hxy : m.Leads program j x y)
    (hyz : m.Leads program k y z) : m.Leads program (j + k) x z := by
  intro budget done
  rw [Nat.add_assoc, hxy, hyz, Nat.add_assoc]

private theorem resume_zero (m : Machine) (program done : Nat) (x : Point) :
    ∃ t, m.resume program 0 done x = .ok t ∧ t.store = x.store := by
  unfold resume
  split
  · exact ⟨_, rfl, rfl⟩
  · exact ⟨_, rfl, rfl⟩

/-- The run from `x` is in range, and the program's tape shows `tape` throughout the
next `budget` instructions. -/
structure Steady (m : Machine) (program : Nat) (tape : List UInt8) (budget : Nat)
    (x : Point) : Prop where
  program_lt : program < x.store.programs
  addressable : tape.length ≤ 2 ^ 32
  within : x.registers.Within tape.length
  shows : ∀ k ≤ budget, ∀ y, m.Leads program k x y → y.store.Shows program tape

private theorem Steady.shows_self {budget : Nat} {x : Point} (h : m.Steady program tape budget x) :
    x.store.Shows program tape :=
  h.shows 0 (Nat.zero_le _) x (.refl x)

private theorem act_ip (m : Machine) (program : Nat) (r : Registers) (s : Store)
    (i : Option Instruction) (ip : UInt32) :
    m.act program { r with ip := ip } s i =
      (m.act program r s i).map fun (r', s') => ({ r' with ip := ip }, s') := by
  unfold act
  split <;> simp only [map_bind] <;> rfl

private theorem ip_eq_of_act {r r' : Registers} {s s' : Store} {i : Option Instruction}
    (h : m.act program r s i = .ok (r', s')) : r'.ip = r.ip := by
  have hmap := m.act_ip program r s i r.ip
  simp only [h, Except.map, Except.ok.injEq, Prod.mk.injEq, and_true] at hmap
  have hip := congrArg Registers.ip hmap
  exact hip

end Machine

/-- A structured execution leaves the pointer alone. -/
theorem Code.Runs.ip_eq {m : Machine} {program : Nat} {code : Code} {r r' : Registers}
    {s s' : Store} {k : Nat} (h : code.Runs m program r s k r' s') : r'.ip = r.ip := by
  induction h with
  | done => rfl
  | simple hact _ ih => rw [ih, Machine.ip_eq_of_act hact]
  | skip _ _ ih => exact ih
  | enter _ _ _ ihBody ihLoop => rw [ihLoop, ihBody]

namespace Machine

variable {m : Machine} {program : Nat} {tape : List UInt8}

/-! ## Single instructions -/

section Instructions

variable (hzero : m.exec.haltOnZero = false)
include hzero

/-- At a point with a target, the instruction under the pointer acts on heads and
cells. -/
theorem execute_at {x : Point} {target : Nat} (hp : program < x.store.programs)
    (hlength : x.store.tapeLength ≤ 2 ^ 32) (hposition : x.position < x.store.tapeLength)
    (htarget : Machine.target program { x.registers with ip := .ofNat x.position } x.store
      (Instruction.ofByte? (x.store.cell program x.position)) = .ok (some target)) :
    m.execute program { x.registers with ip := .ofNat x.position } x.store =
      (m.act program x.registers x.store
        (Instruction.ofByte? (x.store.cell program x.position))).map
          fun (r, s) => some (target, { r with ip := .ofNat x.position }, s) := by
  have hip : (UInt32.ofNat x.position).toNat = x.position := Registers.toNat_ofNat (by omega)
  rw [execute, hip, x.store.load_eq_ok hp hposition, ok_bind, if_neg (by simp [hzero]), htarget,
    ok_bind, act_ip]
  cases m.act program x.registers x.store
      (Instruction.ofByte? (x.store.cell program x.position)) with
  | error fault => rfl
  | ok result => rfl

private theorem resume_of_act_error {x : Point} {target : Nat} {fault : Fault}
    (hp : program < x.store.programs) (hlength : x.store.tapeLength ≤ 2 ^ 32)
    (hposition : x.position < x.store.tapeLength)
    (htarget : Machine.target program { x.registers with ip := .ofNat x.position } x.store
      (Instruction.ofByte? (x.store.cell program x.position)) = .ok (some target))
    (hact : m.act program x.registers x.store
      (Instruction.ofByte? (x.store.cell program x.position)) = .error fault)
    (budget done : Nat) : m.resume program (budget + 1) done x = .error fault := by
  rw [resume, if_neg (by omega), runFrom, step, execute_at hzero hp hlength hposition htarget, hact]
  rfl

omit hzero in
private theorem target_of_simple {position : Nat} {byte : UInt8} {plain : Plain byte} {rest : Code}
    {r : Registers} {s : Store} (hlength : s.tapeLength ≤ 2 ^ 32)
    (hplaced : (Code.simple byte plain rest).Placed (s.cell program) position)
    (hposition : position < s.tapeLength) :
    target program { r with ip := .ofNat position } s
      (Instruction.ofByte? (s.cell program position)) = .ok (some position) := by
  have hplain := plain_of_ofByte? hplaced.1 plain
  rw [target_of_ne (fun h => hplain.1 (Instruction.ofByte?_eq_some_iff.1 h))
    (fun h => hplain.2 (Instruction.ofByte?_eq_some_iff.1 h))]
  rw [Registers.toNat_ofNat (by omega)]

omit hzero in
/-- At either bracket of a loop the test goes on behind the closing one if the cell
under head 0 is zero, and behind the opening one if not. -/
theorem target_of_test {start position : Nat} {body rest : Code} {r : Registers} {s : Store}
    (hp : program < s.programs) (hlength : s.tapeLength ≤ 2 ^ 32) (hr : r.Within s.tapeLength)
    (hplaced : (Code.loop body rest).Placed (s.cell program) start)
    (hend : start + 1 + body.length < s.tapeLength)
    (hentry : (Code.loop body rest).Entry start position) :
    target program { r with ip := .ofNat position } s
        (Instruction.ofByte? (s.cell program position)) =
      .ok (some (if s.cell program r.head0.toNat = 0 then start + 1 + body.length else start)) ∧
    ∀ m : Machine,
      m.act program r s (Instruction.ofByte? (s.cell program position)) = .ok (r, s) := by
  have hbound : position < s.tapeLength := by
    obtain rfl | rfl := hentry <;> omega
  have hip : (UInt32.ofNat position).toNat = position := Registers.toNat_ofNat (by omega)
  have hr' : ({ r with ip := .ofNat position } : Registers).Within s.tapeLength :=
    ⟨hip.symm ▸ hbound, hr.2⟩
  have hforward := Code.matchForward?_placed hplaced hend
  have hbackward := Code.matchBackward?_placed hplaced
  obtain ⟨hopening, -, hclosing, -⟩ := hplaced
  obtain rfl | rfl := hentry
  · rw [Instruction.ofByte?_eq_some_iff.2 hopening]
    refine ⟨?_, fun _ => rfl⟩
    rw [target_loopStart hp hr']
    simp only [hip, hforward]
    split
    · rfl
    · rfl
  · rw [Instruction.ofByte?_eq_some_iff.2 hclosing]
    refine ⟨?_, fun _ => rfl⟩
    rw [target_loopEnd hp hr']
    simp only [hip, hbackward]
    split
    · rfl
    · rfl

variable (hpersist : m.exec.persist = false)
include hpersist

private theorem leads_of_act {x : Point} {target : Nat} {r : Registers} {s : Store}
    (hp : program < x.store.programs) (hlength : x.store.tapeLength ≤ 2 ^ 32)
    (hr : x.registers.Within x.store.tapeLength) (hposition : x.position < x.store.tapeLength)
    (htarget : Machine.target program { x.registers with ip := .ofNat x.position } x.store
      (Instruction.ofByte? (x.store.cell program x.position)) = .ok (some target))
    (hbound : target < x.store.tapeLength)
    (hact : m.act program x.registers x.store
      (Instruction.ofByte? (x.store.cell program x.position)) = .ok (r, s)) :
    m.Leads program 1 x ⟨target + 1, r, s⟩ := by
  intro budget done
  obtain ⟨-, -, hshape⟩ := act_within hlength hr hact
  rw [← hshape.tapeLength_eq] at hbound
  rw [resume, if_neg (by omega), Nat.add_comm 1 budget, runFrom, step,
    execute_at hzero hp hlength hposition htarget, hact]
  simp only [Except.map, ok_bind, proceed_eq_ok _ hbound, resume, hpersist]
  by_cases hlast : target + 1 = s.tapeLength
  · simp only [if_pos hlast]
    rfl
  · simp only [if_neg hlast]

private theorem Steady.of_act {budget target : Nat} {x : Point} {r : Registers} {s : Store}
    (h : m.Steady program tape (budget + 1) x) (hposition : x.position < tape.length)
    (htarget : Machine.target program { x.registers with ip := .ofNat x.position } x.store
      (Instruction.ofByte? (x.store.cell program x.position)) = .ok (some target))
    (hbound : target < tape.length)
    (hact : m.act program x.registers x.store
      (Instruction.ofByte? (x.store.cell program x.position)) = .ok (r, s)) :
    m.Leads program 1 x ⟨target + 1, r, s⟩ ∧ m.Steady program tape budget ⟨target + 1, r, s⟩ := by
  have hlength := h.addressable
  have hr := h.within
  rw [← h.shows_self.1] at hposition hbound hlength hr
  have hlead := leads_of_act hzero hpersist h.program_lt hlength hr hposition htarget hbound hact
  obtain ⟨-, hr', hshape⟩ := act_within hlength hr hact
  refine ⟨hlead, hshape.programs_eq ▸ h.program_lt, h.addressable, h.shows_self.1 ▸ hr', ?_⟩
  intro k hk y hy
  exact h.shows (1 + k) (by omega) y (hlead.trans hy)

/-! ## Pieces of code -/

private theorem Steady.of_simple {budget position : Nat} {byte : UInt8} {plain : Plain byte}
    {rest : Code}
    {r r' : Registers} {s s' : Store}
    (h : m.Steady program tape (budget + 1) ⟨position, r, s⟩)
    (hplaced : (Code.simple byte plain rest).Placed (s.cell program) position)
    (hposition : position < tape.length)
    (hact : m.act program r s (Instruction.ofByte? byte) = .ok (r', s')) :
    m.Leads program 1 ⟨position, r, s⟩ ⟨position + 1, r', s'⟩ ∧
      m.Steady program tape budget ⟨position + 1, r', s'⟩ := by
  have hlength := h.addressable
  have hbound : position < s.tapeLength := h.shows_self.1 ▸ hposition
  rw [← h.shows_self.1] at hlength
  rw [← hplaced.1] at hact
  exact h.of_act hzero hpersist hposition (target_of_simple hlength hplaced hbound) hposition hact

private theorem Steady.of_test {budget start position : Nat} {body rest : Code} {r : Registers}
    {s : Store}
    (h : m.Steady program tape (budget + 1) ⟨position, r, s⟩)
    (hplaced : (Code.loop body rest).Placed (s.cell program) start)
    (hend : start + 1 + body.length < tape.length)
    (hentry : (Code.loop body rest).Entry start position) :
    let next : Point :=
      ⟨(if s.cell program r.head0.toNat = 0 then start + 1 + body.length else start) + 1, r, s⟩
    m.Leads program 1 ⟨position, r, s⟩ next ∧ m.Steady program tape budget next := by
  have hlength : s.tapeLength = tape.length := h.shows_self.1
  obtain ⟨htarget, hact⟩ := target_of_test h.program_lt (hlength ▸ h.addressable)
    (hlength ▸ h.within) hplaced (hlength ▸ hend) hentry
  refine h.of_act hzero hpersist ?_ htarget ?_ (hact m)
  · obtain rfl | rfl := hentry
    · show position < tape.length
      omega
    · exact hend
  · split
    · exact hend
    · omega

/-! ## Runs through code -/

omit hzero hpersist in
/-- Code of the tape lies on the live tape of a steady run. -/
theorem Steady.placed {budget start : Nat} {x : Point} {code : Code}
    (h : m.Steady program tape budget x) (hcode : code.Placed (fun o => tape.getD o 0) start)
    (hend : start + code.length ≤ tape.length) :
    code.Placed (x.store.cell program) start :=
  hcode.congr fun o _ ho => h.shows_self.2 o (by omega)

/-- The run of code leads behind it.  A loop may also be entered at the test of its
closing bracket; the induction on the structured execution does so after a pass. -/
theorem Steady.of_runs {code : Code} {k budget start position : Nat} {r r' : Registers}
    {s s' : Store} (hruns : code.Runs m program r s k r' s')
    (h : m.Steady program tape (k + budget) ⟨position, r, s⟩)
    (hcode : code.Placed (fun o => tape.getD o 0) start)
    (hend : start + code.length ≤ tape.length) (hentry : code.Entry start position) :
    m.Leads program k ⟨position, r, s⟩ ⟨start + code.length, r', s'⟩ ∧
      m.Steady program tape budget ⟨start + code.length, r', s'⟩ := by
  induction hruns generalizing budget start position with
  | done =>
    obtain rfl : position = start := hentry
    rw [Nat.zero_add] at h
    exact ⟨.refl _, h⟩
  | @simple byte plain rest r s r₁ s₁ k r' s' hact hrest ih =>
    obtain rfl : position = start := hentry
    have hplaced := h.placed hcode hend
    rw [Code.length] at hend ⊢
    rw [Nat.add_right_comm] at h
    obtain ⟨hlead, hnext⟩ := h.of_simple hzero hpersist hplaced (by omega) hact
    obtain ⟨hlead', hlast⟩ := ih hnext hcode.2 (by omega) (Code.entry_start _ _)
    rw [Nat.add_comm k 1, Nat.add_comm rest.length 1, ← Nat.add_assoc]
    exact ⟨hlead.trans hlead', hlast⟩
  | @skip body rest r s k r' s' hzeroCell hrest ih =>
    have hplaced := h.placed hcode hend
    rw [Code.length] at hend ⊢
    rw [Nat.add_right_comm] at h
    obtain ⟨hlead, hnext⟩ := h.of_test hzero hpersist hplaced (by omega) hentry
    rw [if_pos hzeroCell] at hlead hnext
    obtain ⟨hlead', hlast⟩ := ih hnext hcode.2.2.2 (by omega) (Code.entry_start _ _)
    rw [show start + (body.length + rest.length + 2) =
      start + 1 + body.length + 1 + rest.length by omega, Nat.add_comm k 1]
    exact ⟨hlead.trans hlead', hlast⟩
  | @enter body rest r s k₁ r₁ s₁ k₂ r' s' hcell hbody hloop ihBody ihLoop =>
    have hplaced := h.placed hcode hend
    have hbound : start + 1 + body.length < tape.length := by
      rw [Code.length] at hend
      omega
    rw [show k₁ + 1 + k₂ + budget = k₁ + (k₂ + budget) + 1 by omega] at h
    obtain ⟨hlead, hnext⟩ := h.of_test hzero hpersist hplaced hbound hentry
    rw [if_neg hcell] at hlead hnext
    obtain ⟨hlead', hagain⟩ := ihBody hnext hcode.2.1 (by omega) (Code.entry_start _ _)
    obtain ⟨hlead'', hlast⟩ := ihLoop hagain hcode hend (.inr rfl)
    rw [Nat.add_comm k₁ 1]
    exact ⟨(hlead.trans hlead').trans hlead'', hlast⟩

omit hzero hpersist in
private theorem Steady.budget_pos {budget done : Nat} {x : Point} {t : Turn}
    (h : m.Steady program tape budget x) (hposition : x.position < tape.length)
    (ht : m.resume program budget done x = .ok t) (hhalted : t.stats.halted = 1) :
    ∃ n, budget = n + 1 := by
  cases budget with
  | zero =>
    have hlength := h.shows_self.1
    rw [resume, if_neg (by omega)] at ht
    obtain rfl := Except.ok.inj ht
    simp at hhalted
  | succ n => exact ⟨n, rfl⟩

omit hpersist in
private theorem Steady.act_of_resume {budget done position : Nat} {byte : UInt8}
    {plain : Plain byte}
    {rest : Code} {r : Registers} {s : Store} {t : Turn}
    (h : m.Steady program tape (budget + 1) ⟨position, r, s⟩)
    (hplaced : (Code.simple byte plain rest).Placed (s.cell program) position)
    (hposition : position < tape.length)
    (ht : m.resume program (budget + 1) done ⟨position, r, s⟩ = .ok t) :
    ∃ r' s', m.act program r s (Instruction.ofByte? byte) = .ok (r', s') := by
  have hlength := h.addressable
  rw [← h.shows_self.1] at hlength hposition
  cases hact : m.act program r s (Instruction.ofByte? byte) with
  | ok result => exact ⟨result.1, result.2, rfl⟩
  | error fault =>
    rw [← hplaced.1] at hact
    rw [resume_of_act_error hzero h.program_lt hlength hposition
      (target_of_simple hlength hplaced hposition) hact] at ht
    simp at ht

/-- A run that halts has executed the code that it stood in front of.  The induction
is on the instructions left: every piece of code takes at least one. -/
theorem Steady.runs_of_halted {code : Code} {budget done start position : Nat} {r : Registers}
    {s : Store} {t : Turn} (h : m.Steady program tape budget ⟨position, r, s⟩)
    (hcode : code.Placed (fun o => tape.getD o 0) start)
    (hend : start + code.length ≤ tape.length) (hentry : code.Entry start position)
    (ht : m.resume program budget done ⟨position, r, s⟩ = .ok t) (hhalted : t.stats.halted = 1) :
    ∃ k ≤ budget, ∃ r' s', code.Runs m program r s k r' s' := by
  induction budget using Nat.strongRecOn generalizing code done start position r s with
  | ind budget ih =>
    have hplaced := h.placed hcode hend
    cases code with
    | done => exact ⟨0, Nat.zero_le _, r, s, .done⟩
    | simple byte plain rest =>
      obtain rfl : position = start := hentry
      rw [Code.length] at hend
      obtain ⟨budget, rfl⟩ := h.budget_pos (by show position < _; omega) ht hhalted
      obtain ⟨r₁, s₁, hact⟩ := h.act_of_resume hzero hplaced (by omega) ht
      obtain ⟨hlead, hnext⟩ := h.of_simple hzero hpersist hplaced (by omega) hact
      rw [Nat.add_comm, hlead] at ht
      obtain ⟨k, hk, r', s', hrest⟩ :=
        ih budget (by omega) hnext hcode.2 (by omega) (Code.entry_start _ _) ht
      exact ⟨k + 1, by omega, r', s', .simple hact hrest⟩
    | loop body rest =>
      rw [Code.length] at hend
      have hposition : position < tape.length := by
        obtain rfl | rfl := hentry <;> omega
      obtain ⟨budget, rfl⟩ := h.budget_pos hposition ht hhalted
      obtain ⟨hlead, hnext⟩ := h.of_test hzero hpersist hplaced (by omega) hentry
      rw [Nat.add_comm, hlead] at ht
      by_cases hcell : s.cell program r.head0.toNat = 0
      · rw [if_pos hcell] at hnext ht
        obtain ⟨k, hk, r', s', hrest⟩ :=
          ih budget (by omega) hnext hcode.2.2.2 (by omega) (Code.entry_start _ _) ht
        exact ⟨k + 1, by omega, r', s', .skip hcell hrest⟩
      · rw [if_neg hcell] at hnext ht
        obtain ⟨k₁, hk₁, r₁, s₁, hbody⟩ :=
          ih budget (by omega) hnext hcode.2.1 (by omega) (Code.entry_start _ _) ht
        obtain ⟨left, rfl⟩ := Nat.exists_eq_add_of_le hk₁
        obtain ⟨hlead', hagain⟩ :=
          hnext.of_runs hzero hpersist hbody hcode.2.1 (by omega) (Code.entry_start _ _)
        rw [hlead'] at ht
        obtain ⟨k₂, hk₂, r', s', hloop⟩ :=
          ih left (by omega) hagain hcode (by rw [Code.length]; omega) (.inr rfl) ht
        exact ⟨k₁ + 1 + k₂, by omega, r', s', .enter hcell hbody hloop⟩

end Instructions

/-! ## Whole programs -/

/-- No write of a run of at most `limit` instructions changes the listing of the
program's own tape. -/
def KeepsListing (m : Machine) (program limit : Nat) (s : Store) (tape : List UInt8) : Prop :=
  ∀ n ≤ limit, ∀ t now, m.runProgram program n s = .ok t →
    t.store.programBytes program = .ok now →
      Instruction.disassemble now = Instruction.disassemble tape

private theorem resume_start (m : Machine) (program limit : Nat) (s : Store) :
    m.resume program limit 0 ⟨0, .start, s⟩ = m.runProgram program limit s :=
  if_neg (Nat.ne_of_lt s.tapeLength_pos)

private theorem steady_start {limit : Nat} {s : Store} (hp : program < s.programs)
    (hlength : s.tapeLength ≤ 2 ^ 32) (hkeeps : m.KeepsListing program limit s tape) :
    m.Steady program tape limit ⟨0, .start, s⟩ := by
  have hwithin := Registers.within_start s.tapeLength_pos
  have hshows : ∀ k ≤ limit, ∀ y : Point, m.Leads program k ⟨0, .start, s⟩ y →
      y.store.Shows program tape := by
    intro k hk y hy
    obtain ⟨t, ht, hstore⟩ := m.resume_zero program (0 + k) y
    rw [← hy, resume_start] at ht
    obtain ⟨-, hshape⟩ := runFrom_within hlength hp hwithin ht
    rw [← hstore]
    exact Store.shows_of_disassemble (hshape.programs_eq ▸ hp) fun now => hkeeps k hk t now ht
  have hself : s.tapeLength = tape.length := (hshows 0 (Nat.zero_le _) _ (.refl _)).1
  exact ⟨hp, hself ▸ hlength, hself ▸ hwithin, hshows⟩

/-- A structured execution within the limit is followed by the run to the end of the
tape. -/
theorem Steady.runProgram_of_runs {code : Code} {k limit : Nat} {r : Registers} {s s' : Store}
    (hzero : m.exec.haltOnZero = false) (hpersist : m.exec.persist = false)
    (h : m.Steady program tape limit ⟨0, .start, s⟩)
    (hruns : code.Runs m program .start s k r s') (hk : k ≤ limit)
    (hcode : code.Placed (fun o => tape.getD o 0) 0) (hend : code.length = tape.length) :
    m.runProgram program limit s = .ok ⟨⟨k, 1, 0⟩, r, s'⟩ := by
  obtain ⟨left, rfl⟩ := Nat.exists_eq_add_of_le hk
  obtain ⟨hlead, hlast⟩ := h.of_runs hzero hpersist hruns hcode (by omega) (code.entry_start 0)
  have hlength : s'.tapeLength = tape.length := hlast.shows_self.1
  have hip : r.ip = 0 := hruns.ip_eq
  rw [← resume_start, hlead, resume, if_pos (by show 0 + code.length = s'.tapeLength; omega),
    Nat.zero_add, ← hip]

end Machine

/-- Bracket loops are while loops.  On a balanced tape, whose listing the run does
not change, a run comes to its end after `k` instructions just if the structured
execution of the code on the tape costs `k` and the limit allows for it, and then
both leave the same heads and the same cells.  Every configuration that is
accepted keeps tapes below the bound on their length, which lets the registers
name each cell. -/
theorem Machine.runProgram_structured (m : Machine) (program limit : Nat) (s : Store)
    (tape : List UInt8) (hpersist : m.exec.persist = false) (hzero : m.exec.haltOnZero = false)
    (hlength : s.tapeLength ≤ 2 ^ 32) (htape : s.programBytes program = .ok tape)
    (hbalanced : Balanced tape) (hkeeps : m.KeepsListing program limit s tape) :
    ∃ code, Code.parse? tape = some code ∧ ∀ k r s',
      (∃ t, m.runProgram program limit s = .ok t ∧ t.stats.halted = 1 ∧
          t.stats.instructions = k ∧ t.registers = r ∧ t.store = s') ↔
        k ≤ limit ∧ r.ip = 0 ∧ code.Runs m program .start s k r s' := by
  obtain ⟨code, hparse⟩ := Code.parse?_of_balanced hbalanced
  obtain ⟨hend, hcode⟩ := Code.placed_of_parse? hparse
  obtain ⟨hp, -⟩ := (s.programBytes_eq_ok_iff).1 htape
  have hsteady := Machine.steady_start hp hlength hkeeps
  have hrun {k : Nat} {r : Registers} {s' : Store} (hk : k ≤ limit)
      (hruns : code.Runs m program .start s k r s') :=
    hsteady.runProgram_of_runs hzero hpersist hruns hk hcode hend
  refine ⟨code, hparse, fun k r s' => ⟨?_, ?_⟩⟩
  · rintro ⟨t, ht, hhalted, rfl, rfl, rfl⟩
    obtain ⟨k, hk, r', s', hruns⟩ := hsteady.runs_of_halted hzero hpersist hcode (by omega)
      (code.entry_start 0) ((resume_start m program limit s).trans ht) hhalted
    rw [hrun hk hruns] at ht
    obtain rfl := Except.ok.inj ht
    exact ⟨hk, hruns.ip_eq, hruns⟩
  · rintro ⟨hk, hip, hruns⟩
    exact ⟨_, hrun hk hruns, rfl, rfl, rfl, rfl⟩

/-- A torus of one program that runs to its end. -/
def Machine.single : Machine := ⟨.lone, .runToCompletion⟩

/-- The tape `<[-]` with two more cells, the last of which is counted down. -/
def Store.countdown : Store :=
  ⟨6, 1, #[60, 91, 45, 93, 0, 2], by decide, Nat.one_pos, rfl, by decide⟩

/-- Two passes and three tests of the loop, one byte before it and two behind. -/
theorem Machine.runProgram_structured_countdown :
    Balanced [60, 91, 45, 93, 0, 2] ∧
      Machine.single.KeepsListing 0 20 .countdown [60, 91, 45, 93, 0, 2] ∧
      ∃ code r s', Code.parse? [60, 91, 45, 93, 0, 2] = some code ∧
        code.Runs .single 0 .start .countdown 8 r s' ∧
        s'.programBytes 0 = .ok [60, 91, 45, 93, 0, 0] := by
  have hlistings : ∀ n < 21, (Machine.single.runProgram 0 n .countdown).bind
      (fun t => (t.store.programBytes 0).map (List.map Instruction.listing)) =
        .ok ['<', '[', '-', ']', '_', '_'] := by decide
  have hbalanced : Balanced [60, 91, 45, 93, 0, 2] := by decide
  have hkeeps : Machine.single.KeepsListing 0 20 .countdown [60, 91, 45, 93, 0, 2] := by
    intro n hn t now ht hnow
    have hlisting := hlistings n (by omega)
    simp only [ht, hnow, Except.bind, Except.map, Except.ok.injEq] at hlisting
    exact congrArg String.ofList hlisting
  obtain ⟨code, hparse, hiff⟩ := Machine.single.runProgram_structured 0 20 .countdown
    [60, 91, 45, 93, 0, 2] rfl rfl (by decide) rfl hbalanced hkeeps
  have hrun : ∃ t, Machine.single.runProgram 0 20 .countdown = .ok t ∧ t.stats = ⟨8, 1, 0⟩ ∧
      t.store.programBytes 0 = .ok [60, 91, 45, 93, 0, 0] := ⟨_, rfl, rfl, rfl⟩
  obtain ⟨t, ht, hstats, hbytes⟩ := hrun
  obtain ⟨-, -, hruns⟩ := (hiff 8 t.registers t.store).1
    ⟨t, ht, by rw [hstats], by rw [hstats], rfl, rfl⟩
  exact ⟨hbalanced, hkeeps, code, t.registers, t.store, hparse, hruns, hbytes⟩

end TapeTorus
