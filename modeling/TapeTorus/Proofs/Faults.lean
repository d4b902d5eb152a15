import TapeTorus.Proofs.InPlace
import TapeTorus.Proofs.InstructionTable

/-!
# When a step faults

A step on registers and tapes that need not fit each other faults just where it would
fetch its byte, read a cell or write one outside the store (`Machine.step_faults_iff_oversteps`).
Scans, moves of the pointer and neighbours never fault on their own.  A fault undoes
nothing, since there is nothing to undo.
-/

namespace TapeTorus

/-- Behind the end of the tape a head moves back by `back` and on by `on` as if there were no
tape: only the range of registers turns it round. -/
structure MovesFreely (back on symbol : Char) (length : Nat) (before after : UInt32) : Prop where
  back : symbol = back → length ≤ before.toNat → after.toNat + 1 = before.toNat
  on : symbol = on → length ≤ before.toNat → after.toNat = (before.toNat + 1) % 2 ^ 32

namespace Machine

/-- The program has no tape, its pointer names no cell, or the instruction there accesses a
cell that does not exist. -/
def Oversteps (m : Machine) (program : Nat) (r : Registers) (s : Store) : Prop :=
  s.programs ≤ program ∨ s.tapeLength ≤ r.ip.toNat ∨
    (s.symbol program r.ip.toNat ∈ ['+', '-', '[', ']', '.', ','] ∧
      s.tapeLength ≤ r.head0.toNat) ∨
    (s.symbol program r.ip.toNat ∈ ['.', ','] ∧
      (s.tapeLength ≤ r.head1.toNat ∨ s.programs ≤ m.selected program s))

variable {m : Machine} {program : Nat} {r r' : Registers} {s s' : Store}

/-! ## Heads behind the end of the tape -/

private theorem ringPrev_outside {position : UInt32} {length : Nat} (hlength : 0 < length)
    (hout : length ≤ position.toNat) :
    ∃ head, ringPrev position.toNat (length - 1) = .ok head ∧
      head.toNat + 1 = position.toNat := by
  have hlimit := position.toNat_lt
  have hne : position.toNat ≠ 0 := by omega
  rw [ringPrev, if_neg hne, Size.sub_eq_ok (by omega)]
  refine ⟨_, rfl, ?_⟩
  rw [Registers.toNat_ofNat (by omega)]
  omega

private theorem ringNext_outside {position : UInt32} {length : Nat} (hlength : 0 < length)
    (hout : length ≤ position.toNat) :
    ∃ head, ringNext position.toNat (length - 1) = .ok head ∧
      head.toNat = (position.toNat + 1) % 2 ^ 32 := by
  have hlimit := position.toNat_lt
  have hne : position.toNat ≠ length - 1 := by omega
  rw [ringNext, if_neg hne, Size.add_eq_ok (by simp only [Size.limit]; omega)]
  exact ⟨_, rfl, UInt32.toNat_ofNat⟩

private theorem proceed_heads {position : Nat} {x : Stepped} (h : m.proceed position r s = .ok x) :
    x.registers.head0 = r.head0 ∧ x.registers.head1 = r.head1 := by
  rw [proceed, bind_eq_ok_iff] at h
  obtain ⟨next, -, h⟩ := h
  split at h
  · obtain rfl := Except.ok.inj h
    exact ⟨rfl, rfl⟩
  · obtain rfl := Except.ok.inj h
    exact ⟨rfl, rfl⟩

/-! ## The instruction under the pointer -/

namespace Executes

variable {i : Instruction} {e : Fault}

theorem symbol_eq (h : m.Executes program r s (some i)) :
    s.symbol program r.ip.toNat = i.symbol := by
  rw [Store.symbol, Instruction.ofByte?_eq_some_iff.1 h.code_eq, i.char_toByte]

private theorem step_of_target_error {i : Option Instruction} (h : m.Executes program r s i)
    (htarget : target program r s i = .error e) : m.step program r s = .error e := by
  rw [step, h.execute_eq, htarget]
  rfl

private theorem step_of_act_error {i : Option Instruction} {position : Nat}
    (h : m.Executes program r s i) (htarget : target program r s i = .ok (some position))
    (hact : m.act program r s i = .error e) : m.step program r s = .error e := by
  rw [step, h.execute_eq, htarget]
  simp only [ok_bind, hact]
  rfl

private theorem heads_of_act {i : Option Instruction} {position : Nat} {x : Stepped}
    (h : m.Executes program r s i) (htarget : target program r s i = .ok (some position))
    (hact : m.act program r s i = .ok (r', s')) (hstep : m.step program r s = .ok x) :
    x.registers.head0 = r'.head0 ∧ x.registers.head1 = r'.head1 := by
  rw [h.step_of_act htarget hact] at hstep
  exact proceed_heads hstep

private theorem step_of_outside (h : m.Executes program r s (some i))
    (hplace : program < m.torus.size)
    (hout : (i.symbol ∈ ['+', '-', '[', ']', '.', ','] ∧ s.tapeLength ≤ r.head0.toNat) ∨
      (i.symbol ∈ ['.', ','] ∧
        (s.tapeLength ≤ r.head1.toNat ∨ s.programs ≤ m.selected program s))) :
    m.step program r s = .error .outOfRange := by
  have hcopy := copyTarget_eq_ok hplace h.program_lt
  have hown : s.tapeLength ≤ r.head0.toNat →
      s.load program r.head0.toNat = .error .outOfRange := fun hhead0 =>
    s.load_eq_error fun hin => by omega
  match i with
  | .head0Left | .head0Right | .head1Left | .head1Right => simp [Instruction.symbol] at hout
  | .decrement | .increment =>
    have hhead0 : s.tapeLength ≤ r.head0.toNat := by simpa [Instruction.symbol] using hout
    apply h.step_of_act_error rfl
    rw [act, hown hhead0]
    rfl
  | .loopStart | .loopEnd =>
    have hhead0 : s.tapeLength ≤ r.head0.toNat := by simpa [Instruction.symbol] using hout
    apply h.step_of_target_error
    rw [target, hown hhead0]
    rfl
  | .push =>
    have hout : s.tapeLength ≤ r.head0.toNat ∨ s.tapeLength ≤ r.head1.toNat ∨
        s.programs ≤ m.selected program s := by simpa [Instruction.symbol] using hout
    apply h.step_of_act_error rfl
    rw [act, hcopy, ok_bind]
    by_cases hhead0 : s.tapeLength ≤ r.head0.toNat
    · rw [hown hhead0]
      rfl
    · rw [s.load_eq_ok h.program_lt (by omega), ok_bind, s.write_eq_error _ fun hin => by omega]
      rfl
  | .pull =>
    have hout : s.tapeLength ≤ r.head0.toNat ∨ s.tapeLength ≤ r.head1.toNat ∨
        s.programs ≤ m.selected program s := by simpa [Instruction.symbol] using hout
    apply h.step_of_act_error rfl
    rw [act, hcopy, ok_bind]
    by_cases hremote : m.selected program s < s.programs ∧ r.head1.toNat < s.tapeLength
    · rw [s.load_eq_ok hremote.1 hremote.2, ok_bind, s.write_eq_error _ fun hin => by omega]
      rfl
    · rw [s.load_eq_error hremote]
      rfl

private theorem act_of_inside (h : m.Executes program r s (some i))
    (hplace : program < m.torus.size)
    (hhead0 : i.symbol ∈ ['+', '-', '[', ']', '.', ','] → r.head0.toNat < s.tapeLength)
    (hremote : i.symbol ∈ ['.', ','] →
      r.head1.toNat < s.tapeLength ∧ m.selected program s < s.programs) :
    ∃ r' s', m.act program r s (some i) = .ok (r', s') := by
  have hp := h.program_lt
  have hcopy := copyTarget_eq_ok hplace hp
  match i with
  | .head0Left =>
    obtain ⟨head, hhead⟩ := exists_ringPrev r.head0.toNat (s.tapeLength - 1)
    exact ⟨_, _, by rw [act, hhead]; rfl⟩
  | .head0Right =>
    obtain ⟨head, hhead⟩ := exists_ringNext r.head0 (s.tapeLength - 1)
    exact ⟨_, _, by rw [act, hhead]; rfl⟩
  | .head1Left =>
    obtain ⟨head, hhead⟩ := exists_ringPrev r.head1.toNat (s.tapeLength - 1)
    exact ⟨_, _, by rw [act, hhead]; rfl⟩
  | .head1Right =>
    obtain ⟨head, hhead⟩ := exists_ringNext r.head1 (s.tapeLength - 1)
    exact ⟨_, _, by rw [act, hhead]; rfl⟩
  | .decrement | .increment =>
    have hhead0 := hhead0 (by decide)
    exact ⟨_, _, by rw [act, s.load_eq_ok hp hhead0, ok_bind, s.write_eq_ok _ hp hhead0]; rfl⟩
  | .push =>
    have hhead0 := hhead0 (by decide)
    obtain ⟨hhead1, hselected⟩ := hremote (by decide)
    exact ⟨_, _, by
      rw [act, hcopy, ok_bind, s.load_eq_ok hp hhead0, ok_bind, s.write_eq_ok _ hselected hhead1]
      rfl⟩
  | .pull =>
    have hhead0 := hhead0 (by decide)
    obtain ⟨hhead1, hselected⟩ := hremote (by decide)
    exact ⟨_, _, by
      rw [act, hcopy, ok_bind, s.load_eq_ok hselected hhead1, ok_bind, s.write_eq_ok _ hp hhead0]
      rfl⟩
  | .loopStart | .loopEnd => exact ⟨r, s, rfl⟩

private theorem step_of_inside (h : m.Executes program r s (some i))
    (hplace : program < m.torus.size)
    (hhead0 : i.symbol ∈ ['+', '-', '[', ']', '.', ','] → r.head0.toNat < s.tapeLength)
    (hremote : i.symbol ∈ ['.', ','] →
      r.head1.toNat < s.tapeLength ∧ m.selected program s < s.programs) :
    ∃ x, m.step program r s = .ok x := by
  obtain ⟨t, htarget⟩ : ∃ t, target program r s (some i) = .ok t := by
    by_cases hloop : i = .loopStart ∨ i = .loopEnd
    · have hown : i.symbol ∈ ['+', '-', '[', ']', '.', ','] := by
        obtain rfl | rfl := hloop <;> decide
      obtain ⟨t, htarget, -⟩ := target_ok_of_lt h.program_lt h.ip_lt (hhead0 hown) (some i)
      exact ⟨t, htarget⟩
    · rw [not_or] at hloop
      exact ⟨_, target_of_ne (by simpa using hloop.1) (by simpa using hloop.2)⟩
  cases t with
  | none => exact ⟨_, h.step_of_stuck htarget⟩
  | some position =>
    obtain ⟨r', s', hact⟩ := h.act_of_inside hplace hhead0 hremote
    have hposition : position < s'.tapeLength := by
      rw [(act_sameShape hact).tapeLength_eq]
      exact target_lt h.program_lt h.ip_lt htarget
    exact ⟨_, (h.step_of_act htarget hact).trans (proceed_eq_ok r' hposition)⟩

end Executes

private theorem step_of_data (h : m.Executes program r s none) : ∃ x, m.step program r s = .ok x :=
  ⟨_, (h.step_of_act rfl rfl).trans (proceed_eq_ok r h.ip_lt)⟩

private theorem executes_or_halts (hp : program < s.programs) (hip : r.ip.toNat < s.tapeLength) :
    (∃ i, m.Executes program r s i) ∨ m.step program r s = .ok ⟨.halted, r, s⟩ := by
  by_cases hhalt : s.cell program r.ip.toNat = 0 ∧ m.exec.haltOnZero
  · exact .inr (step_of_halt hp hip hhalt.1 hhalt.2)
  · exact .inl ⟨_, hp, hip, rfl, hhalt⟩

private theorem exists_of_accesses {symbol : Char}
    (h : symbol ∈ ['+', '-', '[', ']', '.', ','] ∨ symbol ∈ ['.', ',']) :
    ∃ i : Instruction, symbol = i.symbol := by
  simp only [List.mem_cons, List.not_mem_nil, or_false] at h
  obtain (rfl | rfl | rfl | rfl | rfl | rfl) | (rfl | rfl) := h
  · exact ⟨.increment, rfl⟩
  · exact ⟨.decrement, rfl⟩
  · exact ⟨.loopStart, rfl⟩
  · exact ⟨.loopEnd, rfl⟩
  · exact ⟨.push, rfl⟩
  · exact ⟨.pull, rfl⟩
  · exact ⟨.push, rfl⟩
  · exact ⟨.pull, rfl⟩

private theorem step_of_oversteps (hplace : program < m.torus.size) (h : m.Oversteps program r s) :
    m.step program r s = .error .outOfRange := by
  by_cases hfetch : program < s.programs ∧ r.ip.toNat < s.tapeLength
  · obtain hprogram | hip | hout := h
    · omega
    · omega
    obtain ⟨i, hsymbol⟩ := exists_of_accesses (hout.imp And.left And.left)
    have hexec : m.Executes program r s (some i) :=
      executes_of_symbol hfetch.1 hfetch.2 hsymbol
    rw [hsymbol] at hout
    exact hexec.step_of_outside hplace hout
  · rw [step, execute, s.load_eq_error hfetch]
    rfl

private theorem step_of_not_oversteps (hplace : program < m.torus.size)
    (h : ¬m.Oversteps program r s) : ∃ x, m.step program r s = .ok x := by
  simp only [Oversteps, not_or, not_and, Nat.not_le] at h
  obtain ⟨hp, hip, hhead0, hremote⟩ := h
  obtain ⟨i, hexec⟩ | hstep := executes_or_halts (m := m) hp hip
  · cases i with
    | none => exact step_of_data hexec
    | some i =>
      rw [hexec.symbol_eq] at hhead0 hremote
      exact hexec.step_of_inside hplace hhead0 hremote
  · exact ⟨_, hstep⟩

/-! ## Moves of heads behind the end of the tape -/

private theorem head0_movesFreely {x : Stepped} (hp : program < s.programs)
    (hip : r.ip.toNat < s.tapeLength) (hstep : m.step program r s = .ok x) :
    MovesFreely '<' '>' (s.symbol program r.ip.toNat) s.tapeLength r.head0 x.registers.head0 := by
  constructor
  · intro hsymbol hout
    have hexec := executes_of_symbol (m := m) (i := .head0Left) hp hip hsymbol
    obtain ⟨head, hhead, hvalue⟩ := ringPrev_outside s.tapeLength_pos hout
    have hact : m.act program r s (some .head0Left) = .ok ({ r with head0 := head }, s) := by
      rw [act, hhead]
      rfl
    rw [(hexec.heads_of_act rfl hact hstep).1]
    exact hvalue
  · intro hsymbol hout
    have hexec := executes_of_symbol (m := m) (i := .head0Right) hp hip hsymbol
    obtain ⟨head, hhead, hvalue⟩ := ringNext_outside s.tapeLength_pos hout
    have hact : m.act program r s (some .head0Right) = .ok ({ r with head0 := head }, s) := by
      rw [act, hhead]
      rfl
    rw [(hexec.heads_of_act rfl hact hstep).1]
    exact hvalue

private theorem head1_movesFreely {x : Stepped} (hp : program < s.programs)
    (hip : r.ip.toNat < s.tapeLength) (hstep : m.step program r s = .ok x) :
    MovesFreely '{' '}' (s.symbol program r.ip.toNat) s.tapeLength r.head1 x.registers.head1 := by
  constructor
  · intro hsymbol hout
    have hexec := executes_of_symbol (m := m) (i := .head1Left) hp hip hsymbol
    obtain ⟨head, hhead, hvalue⟩ := ringPrev_outside s.tapeLength_pos hout
    have hact : m.act program r s (some .head1Left) = .ok ({ r with head1 := head }, s) := by
      rw [act, hhead]
      rfl
    rw [(hexec.heads_of_act rfl hact hstep).2]
    exact hvalue
  · intro hsymbol hout
    have hexec := executes_of_symbol (m := m) (i := .head1Right) hp hip hsymbol
    obtain ⟨head, hhead, hvalue⟩ := ringNext_outside s.tapeLength_pos hout
    have hact : m.act program r s (some .head1Right) = .ok ({ r with head1 := head }, s) := by
      rw [act, hhead]
      rfl
    rw [(hexec.heads_of_act rfl hact hstep).2]
    exact hvalue

/-! ## Faults -/

/-- A step faults just where an access oversteps the store.  Made in place, it then leaves the
registers and all tapes as they were.  In every other case it comes to its end, in place
as well, and heads behind the end of the tape move freely. -/
theorem step_faults_iff_oversteps (m : Machine) (s : Store) {program : Nat}
    (hplace : program < m.torus.size) (r : Registers) :
    ((∃ fault, m.step program r s = .error fault) ↔ m.Oversteps program r s) ∧
    (m.Oversteps program r s → m.step program r s = .error .outOfRange ∧
      InPlace.run (m.stepInPlace program) r s = (.error .outOfRange, r, s)) ∧
    (¬m.Oversteps program r s → ∃ x, m.step program r s = .ok x ∧
      InPlace.run (m.stepInPlace program) r s = (.ok x.outcome, x.registers, x.store) ∧
      MovesFreely '<' '>' (s.symbol program r.ip.toNat) s.tapeLength r.head0
        x.registers.head0 ∧
      MovesFreely '{' '}' (s.symbol program r.ip.toNat) s.tapeLength r.head1
        x.registers.head1) := by
  refine ⟨⟨?_, fun h => ⟨_, step_of_oversteps hplace h⟩⟩, fun h => ?_, fun h => ?_⟩
  · rintro ⟨fault, hfault⟩
    by_contra hnot
    obtain ⟨x, hstep⟩ := step_of_not_oversteps hplace hnot
    rw [hstep] at hfault
    cases hfault
  · have hstep := step_of_oversteps hplace h
    refine ⟨hstep, ?_⟩
    rw [run_stepInPlace, hstep]
  · obtain ⟨x, hstep⟩ := step_of_not_oversteps hplace h
    simp only [Oversteps, not_or, Nat.not_le] at h
    obtain ⟨hp, hip, -⟩ := h
    refine ⟨x, hstep, ?_, head0_movesFreely hp hip hstep, head1_movesFreely hp hip hstep⟩
    rw [run_stepInPlace, hstep]

/-- A single tape of three cells. -/
def singleTape (a b c : UInt8) : Store :=
  ⟨3, 1, #[a, b, c], Nat.succ_pos 2, Nat.one_pos, rfl, by decide⟩

/-- A push to the eastern neighbour, which has no tape, leaves nothing behind.  A head at the
greatest register value goes on to zero, although the tape has but three cells. -/
theorem step_faults_iff_oversteps_single :
    InPlace.run (sideBySide.stepInPlace 0) ⟨0, 1, 1⟩ (singleTape 46 7 0) =
      (.error .outOfRange, ⟨0, 1, 1⟩, singleTape 46 7 0) ∧
    ∃ x, sideBySide.step 0 ⟨0, 5, 0xffff_ffff⟩ (singleTape 125 7 0) = .ok x ∧
      x.registers.head1.toNat = 0 := by
  constructor
  · obtain ⟨-, hfault, -⟩ := step_faults_iff_oversteps sideBySide (singleTape 46 7 0)
      (show 0 < sideBySide.torus.size by decide) ⟨0, 1, 1⟩
    exact (hfault (.inr (.inr (.inr ⟨by decide, .inr (by decide)⟩)))).2
  · obtain ⟨-, -, hends⟩ := step_faults_iff_oversteps sideBySide (singleTape 125 7 0)
      (show 0 < sideBySide.torus.size by decide) ⟨0, 5, 0xffff_ffff⟩
    have hinside : ¬sideBySide.Oversteps 0 ⟨0, 5, 0xffff_ffff⟩ (singleTape 125 7 0) := by
      unfold Oversteps
      decide
    obtain ⟨x, hstep, -, -, hfree⟩ := hends hinside
    exact ⟨x, hstep, hfree.on (by decide) (by decide)⟩

end Machine
end TapeTorus
