import TapeTorus.Proofs.BracketCounts
import TapeTorus.Proofs.Shift

/-!
# The instruction table

What the byte under the pointer does, as a table in whole numbers: where the program
goes on, where the heads stand afterwards, and the one cell that is written.  All of it
is read off the tapes and the registers before the step.  A step does what the table
says and leaves everything else as it was (`Machine.step_follows_table`).
-/

namespace TapeTorus

open TapeTorus.Bracket

/-- The character of the byte in a cell. -/
def Store.symbol (s : Store) (program offset : Nat) : Char := Char.ofUInt8 (s.cell program offset)

namespace Instruction

variable {b : UInt8}

theorem char_toByte (i : Instruction) : Char.ofUInt8 i.toByte = i.symbol := by
  cases i <;> rfl

private theorem eq_of_char_eq {a b : UInt8} (h : Char.ofUInt8 a = Char.ofUInt8 b) : a = b :=
  UInt8.toUInt32_inj.1 (congrArg Char.val h)

private theorem ofByte?_of_char {i : Instruction} (h : Char.ofUInt8 b = i.symbol) :
    ofByte? b = some i := by
  rw [ofByte?_eq_some_iff]
  exact eq_of_char_eq (h.trans i.char_toByte.symm)

private theorem ofByte?_eq_none (h : ∀ i : Instruction, Char.ofUInt8 b ≠ i.symbol) :
    ofByte? b = none := by
  cases hcode : ofByte? b with
  | none => rfl
  | some i =>
    rw [ofByte?_eq_some_iff] at hcode
    exact absurd (hcode ▸ i.char_toByte) (h i)

private theorem ne_zero_of_ofByte? {i : Instruction} (h : ofByte? b = some i) : b ≠ 0 := by
  rintro rfl
  cases h

end Instruction

/-! ## The table -/

/-- Where a program goes on. -/
inductive Course where
  /-- Behind the instruction. -/
  | behind
  /-- Behind the closing bracket of the loop that starts here. -/
  | skip
  /-- Behind the opening bracket of the loop that ends here. -/
  | again
  /-- Nowhere: it halts. -/
  | halt

/-- What the table says of an instruction. -/
structure Effect where
  course : Course
  head0 : Int
  head1 : Int
  /-- The cell that is written, by program and offset, and the new value. -/
  written : Option (Nat × Nat × Int)

/-- The program goes on, and nothing else happens. -/
def Registers.idle (r : Registers) : Effect := ⟨.behind, r.head0.toNat, r.head1.toNat, none⟩

namespace Effect

/-- The value of a cell afterwards. -/
def cellAfter (e : Effect) (s : Store) (p o : Nat) : Int :=
  match e.written with
  | some (program, offset, value) =>
    if p = program ∧ o = offset then value else (s.cell p o).toNat
  | none => (s.cell p o).toNat

/-- Heads and cells are as the table says, and all cells but the written one as they were. -/
structure Leaves (e : Effect) (s : Store) (r' : Registers) (s' : Store) : Prop where
  head0_eq : (r'.head0.toNat : Int) = e.head0
  head1_eq : (r'.head1.toNat : Int) = e.head1
  shape : s'.SameShape s
  cell_eq : ∀ p < s.programs, ∀ o < s.tapeLength,
    ((s'.cell p o).toNat : Int) = e.cellAfter s p o

/-- The program goes on behind `position`, round its tape.  The end of the tape halts it
unless registers persist. -/
structure GoesOn (e : Effect) (m : Machine) (s : Store) (position : Nat) (x : Stepped) :
    Prop where
  ip_eq : x.registers.ip.toNat = (position + 1) % s.tapeLength
  halted_iff : x.outcome = .halted ↔ position + 1 = s.tapeLength ∧ m.exec.persist = false
  leaves : e.Leaves s x.registers x.store

/-- The step is the one that the table tells of.  Where the partner of a bracket is needed
and there is none, the program halts, with its registers and all tapes untouched. -/
def Describes (e : Effect) (m : Machine) (program : Nat) (r : Registers) (s : Store)
    (x : Stepped) : Prop :=
  match e.course with
  | .behind => e.GoesOn m s r.ip.toNat x
  | .skip =>
    (∃ j, Closes (s.cell program) s.tapeLength r.ip.toNat j ∧ e.GoesOn m s j x) ∨
      (¬∃ j, Closes (s.cell program) s.tapeLength r.ip.toNat j) ∧ x = ⟨.halted, r, s⟩
  | .again =>
    (∃ j, Opens (s.cell program) r.ip.toNat j ∧ e.GoesOn m s j x) ∨
      (¬∃ j, Opens (s.cell program) r.ip.toNat j) ∧ x = ⟨.halted, r, s⟩
  | .halt => x = ⟨.halted, r, s⟩

end Effect

namespace Machine

/-- The direction that a cell value selects: east, west, south or north, by its residue. -/
def directionOf (value : UInt8) : Direction :=
  Direction.all.get ⟨value.toNat % 4, Nat.mod_lt _ (by decide)⟩

/-- The neighbour in the direction that the last cell of the own tape selects. -/
def selected (m : Machine) (program : Nat) (s : Store) : Nat :=
  let d := directionOf (s.cell program (s.tapeLength - 1))
  m.torus.shift (m.torus.columns d) (m.torus.rows d) program

/-- The instruction table, by the character of the byte. -/
def entry (m : Machine) (program : Nat) (r : Registers) (s : Store) (symbol : Char) : Effect :=
  let head0 : Int := r.head0.toNat
  let head1 : Int := r.head1.toNat
  let own : Int := (s.cell program r.head0.toNat).toNat
  let remote : Int := (s.cell (m.selected program s) r.head1.toNat).toNat
  match symbol with
  | '<' => { r.idle with head0 := (head0 - 1) % s.tapeLength }
  | '>' => { r.idle with head0 := (head0 + 1) % s.tapeLength }
  | '{' => { r.idle with head1 := (head1 - 1) % s.tapeLength }
  | '}' => { r.idle with head1 := (head1 + 1) % s.tapeLength }
  | '-' => { r.idle with written := some (program, r.head0.toNat, (own - 1) % 256) }
  | '+' => { r.idle with written := some (program, r.head0.toNat, (own + 1) % 256) }
  | '.' => { r.idle with written := some (m.selected program s, r.head1.toNat, own) }
  | ',' => { r.idle with written := some (program, r.head0.toNat, remote) }
  | '[' => { r.idle with course := if own = 0 then .skip else .behind }
  | ']' => { r.idle with course := if own = 0 then .behind else .again }
  | '\x00' => { r.idle with course := if m.exec.haltOnZero then .halt else .behind }
  | _ => r.idle

/-- What the table says of the byte under the pointer. -/
def effect (m : Machine) (program : Nat) (r : Registers) (s : Store) : Effect :=
  m.entry program r s (s.symbol program r.ip.toNat)

variable {m : Machine} {program : Nat} {r r' : Registers} {s s' : Store}

/-! ## Heads, values and neighbours in whole numbers -/

private theorem ofSelector_eq (value : UInt8) :
    Direction.ofSelector value.toNat = directionOf value := by
  have hresidue : value.toNat % 4 = 0 ∨ value.toNat % 4 = 1 ∨ value.toNat % 4 = 2 ∨
      value.toNat % 4 = 3 := by omega
  obtain h | h | h | h := hresidue <;> simp [Direction.ofSelector, directionOf, h, Direction.all]

theorem copyTarget_eq_neighbor (hp : program < s.programs) : m.copyTarget program s =
    m.torus.neighbor program (.ofSelector (s.cell program (s.tapeLength - 1)).toNat) := by
  rw [copyTarget, s.load_eq_ok hp (Nat.sub_lt s.tapeLength_pos Nat.one_pos), ok_bind]

theorem copyTarget_eq_ok (hprograms : program < m.torus.size) (hp : program < s.programs) :
    m.copyTarget program s = .ok (m.selected program s) := by
  rw [copyTarget_eq_neighbor hp, ofSelector_eq, m.torus.neighbor_eq_shift hprograms]
  rfl

private theorem selected_lt (m : Machine) (program : Nat) (s : Store) :
    m.selected program s < m.torus.size := m.torus.shift_lt _ _ _

private theorem ringPrev_int {position length : Nat} (hposition : position < length)
    (hlength : length ≤ 2 ^ 32) :
    ∃ head, ringPrev position (length - 1) = .ok head ∧
      (head.toNat : Int) = ((position : Int) - 1) % length := by
  obtain ⟨head, hhead, hvalue⟩ := ringPrev_ok hposition hlength
  refine ⟨head, hhead, ?_⟩
  have hround : ((position + (length - 1) : Nat) : Int) = (position : Int) - 1 + length := by omega
  rw [hvalue, Int.natCast_emod, hround, Int.add_emod_right]

private theorem ringNext_int {position length : Nat} (hposition : position < length)
    (hlength : length ≤ 2 ^ 32) :
    ∃ head, ringNext position (length - 1) = .ok head ∧
      (head.toNat : Int) = ((position : Int) + 1) % length := by
  obtain ⟨head, hhead, hvalue⟩ := ringNext_ok hposition hlength
  refine ⟨head, hhead, ?_⟩
  rw [hvalue, Int.natCast_emod, Int.natCast_add, Int.natCast_one]

private theorem toNat_sub_one (value : UInt8) :
    ((value - 1).toNat : Int) = ((value.toNat : Int) - 1) % 256 := by
  have hlt := value.toNat_lt
  rw [UInt8.toNat_sub]
  simp only [UInt8.toNat_one]
  omega

private theorem toNat_add_one (value : UInt8) :
    ((value + 1).toNat : Int) = ((value.toNat : Int) + 1) % 256 := by
  rw [UInt8.toNat_add]
  simp only [UInt8.toNat_one]
  omega

/-! ## Steps, part by part -/

/-- The byte under the pointer has the effect of `i`, and does not halt the program. -/
structure Executes (m : Machine) (program : Nat) (r : Registers) (s : Store)
    (i : Option Instruction) : Prop where
  program_lt : program < s.programs
  ip_lt : r.ip.toNat < s.tapeLength
  code_eq : Instruction.ofByte? (s.cell program r.ip.toNat) = i
  awake : ¬(s.cell program r.ip.toNat = 0 ∧ m.exec.haltOnZero)

theorem executes_of_symbol (hp : program < s.programs) (hip : r.ip.toNat < s.tapeLength)
    {i : Instruction} (h : s.symbol program r.ip.toNat = i.symbol) :
    m.Executes program r s (some i) := by
  have hbyte := Instruction.ofByte?_of_char h
  exact ⟨hp, hip, hbyte, fun hnul => Instruction.ne_zero_of_ofByte? hbyte hnul.1⟩

namespace Executes

variable {i : Option Instruction}

theorem execute_eq (h : m.Executes program r s i) :
    m.execute program r s = (do
      match ← target program r s i with
      | none => return none
      | some position => do
        let (r, s) ← m.act program r s i
        return some (position, r, s)) := by
  rewrite [execute, s.load_eq_ok h.program_lt h.ip_lt, ok_bind, if_neg h.awake, h.code_eq]
  rfl

theorem step_of_stuck (h : m.Executes program r s i)
    (htarget : target program r s i = .ok none) :
    m.step program r s = .ok ⟨.halted, r, s⟩ := by
  rw [step, h.execute_eq, htarget]
  rfl

theorem step_of_act {position : Nat} (h : m.Executes program r s i)
    (htarget : target program r s i = .ok (some position))
    (hact : m.act program r s i = .ok (r', s')) :
    m.step program r s = m.proceed position r' s' := by
  rw [step, h.execute_eq, htarget]
  simp only [ok_bind, hact, pure_eq_ok]

private theorem goesOn {e : Effect} {position : Nat} (h : m.Executes program r s i)
    (hlength : s.tapeLength ≤ 2 ^ 32) (hposition : position < s.tapeLength)
    (htarget : target program r s i = .ok (some position))
    (hact : m.act program r s i = .ok (r', s')) (hleaves : e.Leaves s r' s') :
    ∃ x, m.step program r s = .ok x ∧ e.GoesOn m s position x := by
  have hsame := hleaves.shape.tapeLength_eq
  rw [h.step_of_act htarget hact, proceed_eq_ok r' (hsame ▸ hposition), hsame]
  refine ⟨_, rfl, ?_⟩
  have hkept := hleaves.head0_eq
  have hkept' := hleaves.head1_eq
  split
  · rename_i hlast
    refine ⟨?_, ?_, hkept, hkept', hleaves.shape, hleaves.cell_eq⟩
    · rw [hlast, Nat.mod_self]
      rfl
    · cases hpersist : m.exec.persist <;> simp [hlast]
  · rename_i hlast
    refine ⟨?_, ?_, hkept, hkept', hleaves.shape, hleaves.cell_eq⟩
    · rw [Registers.toNat_ofNat (by omega), Nat.mod_eq_of_lt (by omega)]
    · simp [hlast]

end Executes

theorem step_of_halt (hp : program < s.programs) (hip : r.ip.toNat < s.tapeLength)
    (hnul : s.cell program r.ip.toNat = 0) (hhalt : m.exec.haltOnZero = true) :
    m.step program r s = .ok ⟨.halted, r, s⟩ := by
  have hexecute : m.execute program r s = .ok none := by
    rw [execute, s.load_eq_ok hp hip, ok_bind, if_pos ⟨hnul, hhalt⟩]
    rfl
  rw [step, hexecute]
  rfl

private theorem leaves_idle (r : Registers) (s : Store) (course : Course) :
    Effect.Leaves { r.idle with course := course } s r s :=
  ⟨rfl, rfl, .refl s, fun _ _ _ _ => rfl⟩

private theorem leaves_written {q o : Nat} {value : UInt8} {written : Int} (hq : q < s.programs)
    (ho : o < s.tapeLength) (hwritten : (value.toNat : Int) = written) :
    Effect.Leaves { r.idle with written := some (q, o, written) } s r (s.update q o value) := by
  refine ⟨rfl, rfl, s.update_sameShape q o value, fun p _ o' ho' => ?_⟩
  rw [s.cell_update value hq ho ho']
  by_cases hplace : p = q ∧ o' = o
  · simp only [Effect.cellAfter, if_pos hplace, hwritten]
  · simp only [Effect.cellAfter, if_neg hplace]

/-! ## Loops -/

private theorem cell_eq_zero_iff (value : UInt8) : (value.toNat : Int) = 0 ↔ value = 0 := by
  rw [← UInt8.toNat_inj, UInt8.toNat_zero, Int.natCast_eq_zero]

private theorem loopStart_describes (h : m.Executes program r s (some .loopStart))
    (hlength : s.tapeLength ≤ 2 ^ 32) (hr : r.Within s.tapeLength) :
    ∃ x, m.step program r s = .ok x ∧ (m.entry program r s '[').Describes m program r s x := by
  have hentry : m.entry program r s '[' = { r.idle with course :=
      if ((s.cell program r.head0.toNat).toNat : Int) = 0 then .skip else .behind } := rfl
  have htarget := target_loopStart h.program_lt hr
  have hact : m.act program r s (some .loopStart) = .ok (r, s) := rfl
  by_cases hzero : s.cell program r.head0.toNat = 0
  · rw [if_pos hzero] at htarget
    rw [hentry, if_pos ((cell_eq_zero_iff _).2 hzero)]
    cases hmatch : matchForward? (s.cell program) s.tapeLength r.ip.toNat with
    | none =>
      rw [hmatch] at htarget
      refine ⟨_, h.step_of_stuck htarget, .inr ⟨?_, rfl⟩⟩
      rintro ⟨j, hj⟩
      simp [matchForward?_eq_some_iff.2 hj] at hmatch
    | some j =>
      rw [hmatch] at htarget
      have hj := matchForward?_eq_some_iff.1 hmatch
      obtain ⟨x, hx, hgoes⟩ := h.goesOn hlength hj.on_tape htarget hact (leaves_idle r s .skip)
      exact ⟨x, hx, .inl ⟨j, hj, hgoes⟩⟩
  · rw [if_neg hzero] at htarget
    rw [hentry, if_neg (mt (cell_eq_zero_iff _).1 hzero)]
    exact h.goesOn hlength hr.1 htarget hact (leaves_idle r s .behind)

private theorem loopEnd_describes (h : m.Executes program r s (some .loopEnd))
    (hlength : s.tapeLength ≤ 2 ^ 32) (hr : r.Within s.tapeLength) :
    ∃ x, m.step program r s = .ok x ∧ (m.entry program r s ']').Describes m program r s x := by
  have hentry : m.entry program r s ']' = { r.idle with course :=
      if ((s.cell program r.head0.toNat).toNat : Int) = 0 then .behind else .again } := rfl
  have htarget := target_loopEnd h.program_lt hr
  have hact : m.act program r s (some .loopEnd) = .ok (r, s) := rfl
  by_cases hzero : s.cell program r.head0.toNat = 0
  · rw [if_pos hzero] at htarget
    rw [hentry, if_pos ((cell_eq_zero_iff _).2 hzero)]
    exact h.goesOn hlength hr.1 htarget hact (leaves_idle r s .behind)
  · rw [if_neg hzero] at htarget
    rw [hentry, if_neg (mt (cell_eq_zero_iff _).1 hzero)]
    cases hmatch : matchBackward? (s.cell program) r.ip.toNat with
    | none =>
      rw [hmatch] at htarget
      refine ⟨_, h.step_of_stuck htarget, .inr ⟨?_, rfl⟩⟩
      rintro ⟨j, hj⟩
      simp [matchBackward?_eq_some_iff.2 hj] at hmatch
    | some j =>
      rw [hmatch] at htarget
      have hj := matchBackward?_eq_some_iff.1 hmatch
      have hposition : j < s.tapeLength := Nat.lt_trans hj.before h.ip_lt
      obtain ⟨x, hx, hgoes⟩ := h.goesOn hlength hposition htarget hact (leaves_idle r s .again)
      exact ⟨x, hx, .inl ⟨j, hj, hgoes⟩⟩

/-! ## Steps follow the table -/

/-- Heads and cells come out of an instruction as the table says. -/
theorem act_leaves (hfit : m.Fits s) (hp : program < s.programs) (hr : r.Within s.tapeLength)
    (i : Instruction) :
    ∃ r' s', m.act program r s (some i) = .ok (r', s') ∧
      (m.entry program r s i.symbol).Leaves s r' s' := by
  have hlength := hfit.addressable
  have hload := s.load_eq_ok hp hr.2.1
  have hselected : m.selected program s < s.programs :=
    hfit.programs_eq ▸ m.selected_lt program s
  have hcopy : m.copyTarget program s = .ok (m.selected program s) :=
    copyTarget_eq_ok (hfit.programs_eq ▸ hp) hp
  match i with
  | .head0Left =>
    obtain ⟨head, hhead, hvalue⟩ := ringPrev_int hr.2.1 hlength
    refine ⟨{ r with head0 := head }, s, ?_, hvalue, rfl, .refl s, fun _ _ _ _ => rfl⟩
    rw [act, hhead]
    rfl
  | .head0Right =>
    obtain ⟨head, hhead, hvalue⟩ := ringNext_int hr.2.1 hlength
    refine ⟨{ r with head0 := head }, s, ?_, hvalue, rfl, .refl s, fun _ _ _ _ => rfl⟩
    rw [act, hhead]
    rfl
  | .head1Left =>
    obtain ⟨head, hhead, hvalue⟩ := ringPrev_int hr.2.2 hlength
    refine ⟨{ r with head1 := head }, s, ?_, rfl, hvalue, .refl s, fun _ _ _ _ => rfl⟩
    rw [act, hhead]
    rfl
  | .head1Right =>
    obtain ⟨head, hhead, hvalue⟩ := ringNext_int hr.2.2 hlength
    refine ⟨{ r with head1 := head }, s, ?_, rfl, hvalue, .refl s, fun _ _ _ _ => rfl⟩
    rw [act, hhead]
    rfl
  | .decrement =>
    refine ⟨r, _, ?_, leaves_written hp hr.2.1 (toNat_sub_one _)⟩
    rw [act, hload, ok_bind, s.write_eq_ok _ hp hr.2.1]
    rfl
  | .increment =>
    refine ⟨r, _, ?_, leaves_written hp hr.2.1 (toNat_add_one _)⟩
    rw [act, hload, ok_bind, s.write_eq_ok _ hp hr.2.1]
    rfl
  | .push =>
    refine ⟨r, _, ?_, leaves_written hselected hr.2.2 rfl⟩
    rw [act, hcopy, ok_bind, hload, ok_bind, s.write_eq_ok _ hselected hr.2.2]
    rfl
  | .pull =>
    refine ⟨r, _, ?_, leaves_written hp hr.2.1 rfl⟩
    rw [act, hcopy, ok_bind, s.load_eq_ok hselected hr.2.2, ok_bind, s.write_eq_ok _ hp hr.2.1]
    rfl
  | .loopStart | .loopEnd => exact ⟨r, s, rfl, leaves_idle r s _⟩

private theorem course_entry {i : Instruction} (hstart : i ≠ .loopStart) (hend : i ≠ .loopEnd) :
    (m.entry program r s i.symbol).course = .behind := by
  cases i with
  | loopStart => exact absurd rfl hstart
  | loopEnd => exact absurd rfl hend
  | _ => rfl

private theorem entry_eq_idle {symbol : Char} (hcode : ∀ i : Instruction, symbol ≠ i.symbol)
    (hnul : symbol ≠ '\x00') : m.entry program r s symbol = r.idle := by
  unfold entry
  split
  · exact absurd rfl (hcode .head0Left)
  · exact absurd rfl (hcode .head0Right)
  · exact absurd rfl (hcode .head1Left)
  · exact absurd rfl (hcode .head1Right)
  · exact absurd rfl (hcode .decrement)
  · exact absurd rfl (hcode .increment)
  · exact absurd rfl (hcode .push)
  · exact absurd rfl (hcode .pull)
  · exact absurd rfl (hcode .loopStart)
  · exact absurd rfl (hcode .loopEnd)
  · exact absurd rfl hnul
  · rfl

private theorem instruction_describes {i : Instruction} (h : m.Executes program r s (some i))
    (hfit : m.Fits s) (hr : r.Within s.tapeLength) :
    ∃ x, m.step program r s = .ok x ∧
      (m.entry program r s i.symbol).Describes m program r s x := by
  by_cases hstart : i = .loopStart
  · subst hstart
    exact loopStart_describes h hfit.addressable hr
  by_cases hend : i = .loopEnd
  · subst hend
    exact loopEnd_describes h hfit.addressable hr
  obtain ⟨r', s', hact, hleaves⟩ := act_leaves hfit h.program_lt hr i
  have htarget : target program r s (some i) = .ok (some r.ip.toNat) :=
    target_of_ne (by simpa using hstart) (by simpa using hend)
  obtain ⟨x, hx, hgoes⟩ := h.goesOn hfit.addressable h.ip_lt htarget hact hleaves
  refine ⟨x, hx, ?_⟩
  rw [Effect.Describes, course_entry hstart hend]
  exact hgoes

private theorem nul_describes (hfit : m.Fits s) (hp : program < s.programs)
    (hr : r.Within s.tapeLength)
    (hnul : s.cell program r.ip.toNat = 0) :
    ∃ x, m.step program r s = .ok x ∧
      (m.entry program r s '\x00').Describes m program r s x := by
  have hentry : m.entry program r s '\x00' =
      { r.idle with course := if m.exec.haltOnZero then .halt else .behind } := rfl
  rw [hentry]
  by_cases hhalt : m.exec.haltOnZero = true
  · rw [if_pos hhalt]
    exact ⟨⟨.halted, r, s⟩, step_of_halt hp hr.1 hnul hhalt, rfl⟩
  · rw [if_neg hhalt]
    have hexec : m.Executes program r s none :=
      ⟨hp, hr.1, by rw [hnul]; rfl, fun h => hhalt h.2⟩
    exact hexec.goesOn hfit.addressable hr.1 rfl rfl (leaves_idle r s .behind)

/-- A step of a program whose registers name cells of its own tape does what the instruction
table says of the byte under the pointer. -/
theorem step_follows_table (m : Machine) (s : Store) (hfit : m.Fits s) {program : Nat}
    (hp : program < s.programs) {r : Registers} (hr : r.Within s.tapeLength) :
    ∃ x, m.step program r s = .ok x ∧
      (m.effect program r s).Describes m program r s x := by
  unfold effect
  by_cases hcode : ∃ i : Instruction, s.symbol program r.ip.toNat = i.symbol
  · obtain ⟨i, hsymbol⟩ := hcode
    rw [hsymbol]
    exact instruction_describes (executes_of_symbol hp hr.1 hsymbol) hfit hr
  have hcode : ∀ i : Instruction, s.symbol program r.ip.toNat ≠ i.symbol := not_exists.1 hcode
  by_cases hnul : s.symbol program r.ip.toNat = '\x00'
  · rw [hnul]
    exact nul_describes hfit hp hr (Instruction.eq_of_char_eq hnul)
  · have hexec : m.Executes program r s none :=
      ⟨hp, hr.1, Instruction.ofByte?_eq_none hcode, fun h => hnul (congrArg Char.ofUInt8 h.1)⟩
    rw [entry_eq_idle hcode hnul]
    exact hexec.goesOn hfit.addressable hr.1 rfl rfl (leaves_idle r s .behind)

/-- Two programs side by side, whose registers do not persist. -/
def sideBySide : Machine := ⟨.couple, .runToCompletion⟩

/-- The first program ends in `.`, which is its own selector, too: the neighbour to the south
of a single row is the program itself.  The copy goes to its first cell, and the program
halts at the end of its tape. -/
theorem step_follows_table_selfCopy :
    ∃ x, sideBySide.step 0 ⟨2, 2, 0⟩ (.couple 1 2 46 4 5 6) = .ok x ∧ x.outcome = .halted ∧
      x.registers.ip.toNat = 0 ∧ x.registers.head0.toNat = 2 ∧ x.registers.head1.toNat = 0 ∧
      (x.store.cell 0 0).toNat = 46 ∧ (x.store.cell 0 2).toNat = 46 ∧
      (x.store.cell 1 0).toNat = 4 := by
  obtain ⟨x, hstep, hdescribes⟩ := step_follows_table sideBySide (.couple 1 2 46 4 5 6)
    ⟨rfl, by decide⟩ (show 0 < 2 by decide) (r := ⟨2, 2, 0⟩) (by decide)
  have heffect : sideBySide.effect 0 ⟨2, 2, 0⟩ (.couple 1 2 46 4 5 6) =
      ⟨.behind, 2, 0, some (0, 0, 46)⟩ := rfl
  rw [heffect] at hdescribes
  obtain ⟨hip, hhalted, hhead0, hhead1, -, hcell⟩ := hdescribes
  have hfirst := hcell 0 (by decide) 0 (by decide)
  have hlast := hcell 0 (by decide) 2 (by decide)
  have hother := hcell 1 (by decide) 0 (by decide)
  exact ⟨x, hstep, hhalted.2 ⟨rfl, rfl⟩, hip, Int.ofNat_inj.1 hhead0, Int.ofNat_inj.1 hhead1,
    Int.ofNat_inj.1 hfirst, Int.ofNat_inj.1 hlast, Int.ofNat_inj.1 hother⟩

end Machine
end TapeTorus
