import TapeTorus.Proofs.Buffers

/-!
# Edits by the host

The host sets the registers of a program, loads all tapes, and puts every program to its start.
Here the triples and cells are changed one by one, on a world that a refusal leaves as it stands.
Still no edit is ever made in part (`Edit.run_eq`): each checks all that it is given before it
changes anything, and then changes its own part alone.  So edits of different parts can be made
in any order, whether they are refused or not.
-/

namespace TapeTorus

/-! ## Cells and triples, one by one -/

namespace Store

def setSlot (s : Store) (slot : Nat) (value : UInt8) : Store :=
  { s with
    cells := s.cells.setIfInBounds slot value
    size_eq := by simp [s.size_eq] }

/-- Replaces the cells from the first on by the low bytes of a buffer. -/
def overwrite (s : Store) (buffer : Array UInt32) : Store :=
  buffer.toList.zipIdx.foldl (fun s (value, slot) => s.setSlot slot value.toUInt8) s

private theorem foldl_setSlot_sameShape (values : List (UInt32 × Nat)) (s : Store) :
    (values.foldl (fun s (value, slot) => s.setSlot slot value.toUInt8) s).SameShape s := by
  induction values generalizing s with
  | nil => exact .refl s
  | cons v values ih => exact (ih _).trans ⟨rfl, rfl⟩

private theorem foldl_setSlot_getElem? (values : List UInt32) (start : Nat) (s : Store)
    (h : start + values.length ≤ s.cells.size) (i : Nat) :
    ((values.zipIdx start).foldl (fun s (value, slot) => s.setSlot slot value.toUInt8)
        s).cells[i]? =
      (if start ≤ i then (values.map UInt32.toUInt8)[i - start]? else none).or s.cells[i]? := by
  induction values generalizing start s with
  | nil => simp
  | cons value values ih =>
    have hsize : (s.setSlot start value.toUInt8).cells.size = s.cells.size :=
      Array.size_setIfInBounds
    have hroom : start + 1 + values.length ≤ s.cells.size := by
      rw [List.length_cons] at h
      omega
    rw [List.zipIdx_cons, List.foldl_cons, ih _ _ (hsize ▸ hroom)]
    rcases Nat.lt_trichotomy i start with hbefore | rfl | hbehind
    · have hother : (s.setSlot start value.toUInt8).cells[i]? = s.cells[i]? :=
        Array.getElem?_setIfInBounds_ne (Nat.ne_of_gt hbefore)
      rw [if_neg (by omega), if_neg (by omega), hother]
    · have hown : (s.setSlot i value.toUInt8).cells[i]? = some value.toUInt8 :=
        Array.getElem?_setIfInBounds_self_of_lt (by omega)
      rw [if_neg (by omega), if_pos (Nat.le_refl i), hown]
      simp
    · have hother : (s.setSlot start value.toUInt8).cells[i]? = s.cells[i]? :=
        Array.getElem?_setIfInBounds_ne (Nat.ne_of_lt hbehind)
      obtain ⟨k, rfl⟩ := Nat.exists_eq_add_of_lt hbehind
      have hslot : start + k + 1 - start = k + 1 := by omega
      have hslot' : start + k + 1 - (start + 1) = k := by omega
      rw [if_pos (by omega), if_pos (by omega), hother, hslot, hslot', List.map_cons,
        List.getElem?_cons_succ]

private theorem overwrite_sameShape (s : Store) (buffer : Array UInt32) :
    (s.overwrite buffer).SameShape s :=
  foldl_setSlot_sameShape _ s

@[simp] theorem size_overwrite (s : Store) (buffer : Array UInt32) :
    (s.overwrite buffer).cells.size = s.cells.size := by
  have hshape := s.overwrite_sameShape buffer
  rw [(s.overwrite buffer).size_eq, hshape.programs_eq, hshape.tapeLength_eq, s.size_eq]

private theorem cells_overwrite {s : Store} {buffer : Array UInt32}
    (h : buffer.size = s.cells.size) :
    (s.overwrite buffer).cells = buffer.map UInt32.toUInt8 := by
  apply Array.ext_getElem?
  intro i
  have hfit : 0 + buffer.toList.length ≤ s.cells.size := by
    rw [Nat.zero_add, Array.length_toList]
    exact Nat.le_of_eq h
  rw [overwrite, foldl_setSlot_getElem? _ _ _ hfit, if_pos (Nat.zero_le i), Nat.sub_zero]
  by_cases hi : i < buffer.size
  · simp [hi]
  · simp [Nat.le_of_not_lt hi, h ▸ Nat.le_of_not_lt hi]

theorem writeCells_eq (s : Store) (buffer : Array UInt32) :
    s.writeCells buffer = (do
      Error.require (buffer.size = s.cells.size) (.cellCount s.cells.size buffer.size)
      return s.overwrite buffer) := by
  by_cases h : buffer.size = s.cells.size
  · rw [Error.require_eq_ok h, ok_bind, pure_eq_ok, writeCells, dif_pos h, Except.ok.injEq]
    have hshape := (s.overwrite_sameShape buffer).symm
    exact SameShape.eq_of_cells ⟨hshape.tapeLength_eq, hshape.programs_eq⟩
      (cells_overwrite h).symm
  · rw [Error.require_eq_error h, writeCells, dif_neg h]
    rfl

private theorem snapshot_overwrite {s : Store} {buffer : Array UInt32}
    (h : buffer.size = s.cells.size) :
    (s.overwrite buffer).snapshot = buffer.map (· % 256) :=
  snapshot_of_cells (cells_overwrite h)

private theorem overwrite_overwrite {s : Store} {first second : Array UInt32}
    (h : second.size = s.cells.size) :
    (s.overwrite first).overwrite second = s.overwrite second := by
  have hshape := s.overwrite_sameShape first
  have hsize := s.size_overwrite first
  refine SameShape.eq_of_cells ?_ ?_
  · exact ((overwrite_sameShape _ second).trans hshape).trans (s.overwrite_sameShape second).symm
  · rw [cells_overwrite (h.trans hsize.symm), cells_overwrite h]

end Store

namespace RegisterBank

private theorem put_comm (b : RegisterBank) {p q : Nat} (h : p ≠ q) (r r' : Registers) :
    (b.put p r).put q r' = (b.put q r').put p r := by
  unfold put
  rw [Array.setIfInBounds_comm _ _ h]

private theorem foldl_put_sizes (programs : List Nat) (r : Registers) (b : RegisterBank) :
    (programs.foldl (fun b program => b.put program r) b).size = b.size ∧
      (programs.foldl (fun b program => b.put program r) b).tapeLength = b.tapeLength := by
  induction programs generalizing b with
  | nil => exact ⟨rfl, rfl⟩
  | cons p programs ih =>
    rw [List.foldl_cons, (ih _).1, (ih _).2, size_put]
    exact ⟨rfl, rfl⟩

private theorem get_foldl_put {programs : List Nat} {q : Nat} (r : Registers) (b : RegisterBank)
    (hq : q < b.size) :
    (programs.foldl (fun b program => b.put program r) b).get q =
      if q ∈ programs then .ok r else b.get q := by
  induction programs generalizing b with
  | nil => simp
  | cons p programs ih =>
    rw [List.foldl_cons, ih _ (by rwa [size_put])]
    by_cases hp : p = q
    · subst hp
      rw [get_put_self hq]
      simp
    · rw [get_put_of_ne hp]
      simp [Ne.symm hp]

private theorem get_reset (b : RegisterBank) (program : Nat) :
    b.reset.get program = (b.get program).map fun _ => .start := by
  simp only [get, reset, Array.getElem?_map]
  cases b.triples[program]? <;> rfl

private theorem foldl_put_start (b : RegisterBank) :
    (List.range b.size).foldl (fun b program => b.put program .start) b = b.reset := by
  obtain ⟨hsize, hlength⟩ := foldl_put_sizes (List.range b.size) .start b
  refine eq_of_get hlength (hsize.trans b.size_reset.symm) fun p hp => ?_
  rw [hsize] at hp
  obtain ⟨r, hr⟩ := get_ok hp
  rw [get_foldl_put _ _ hp, if_pos (List.mem_range.2 hp), get_reset, hr]
  rfl

end RegisterBank

/-! ## Edits in place -/

/-- A computation on a world that is changed in place.  A refusal does not undo what has been
changed before. -/
abbrev Editing (α : Type) := ExceptT Error (StateM World) α

namespace Editing

variable {α β : Type}

/-- The result, and the world as it is left. -/
def run (x : Editing α) (w : World) : Except Error α × World := (ExceptT.run x).run w

/-- Looks at the world as it stands. -/
def read (f : World → Except Error α) : Editing α := do
  let w ← get
  MonadExcept.ofExcept (f w)

def change (f : World → World) : Editing Unit := modify f

variable {w : World}

theorem run_bind (x : Editing α) (f : α → Editing β) :
    run (x >>= f) w =
      match run x w with
      | (.ok a, w') => run (f a) w'
      | (.error e, w') => (.error e, w') := by
  unfold run
  rw [ExceptT.run_bind, StateT.run_bind]
  generalize StateT.run (ExceptT.run x) w = z
  match z with
  | (.ok a, w') => rfl
  | (.error e, w') => rfl

theorem run_read_then (f : World → Except Error α) (g : α → Editing β) :
    run (read f >>= g) w =
      match f w with
      | .ok a => run (g a) w
      | .error e => (.error e, w) := by
  have hread : run (read f) w = (f w, w) := by
    have hget : run (read f) w = run (MonadExcept.ofExcept (f w)) w := rfl
    rw [hget]
    cases f w <;> rfl
  rw [run_bind, hread]
  cases f w <;> rfl

private theorem run_change (f : World → World) : run (change f) w = (.ok (), f w) := rfl

private theorem run_forM_change {ι : Type} (f : ι → World → World) (items : List ι) (w : World) :
    run (forM items fun i => change (f i)) w =
      (.ok (), items.foldl (fun w i => f i w) w) := by
  induction items generalizing w with
  | nil => rfl
  | cons i items ih =>
    rw [List.forM_cons, run_bind, run_change]
    exact ih (f i w)

end Editing

inductive Edit where
  | setRegisters (program : Nat) (r : Registers)
  | loadTape (buffer : Array UInt32)
  | resetRegisters

namespace World

def putRegisters (w : World) (program : Nat) (r : Registers) : World :=
  { w with bank := w.bank.put program r }

private theorem putRegisters_comm (w : World) {p q : Nat} (h : p ≠ q) (r r' : Registers) :
    (w.putRegisters p r).putRegisters q r' = (w.putRegisters q r').putRegisters p r :=
  congrArg (fun b => { w with bank := b }) (w.bank.put_comm h r r')

def setCell (w : World) (slot : Nat) (value : UInt8) : World :=
  { w with store := w.store.setSlot slot value }

end World

namespace Edit

open Editing (read change)

def call : Edit → Call
  | .setRegisters program r => .setRegisters program r
  | .loadTape buffer => .loadTape buffer
  | .resetRegisters => .resetRegisters

/-- Makes an edit, with each check and each change at its time. -/
def inPlace : Edit → Editing Unit
  | .setRegisters program r => do
    read fun w => Error.require (program < w.bank.size) (.unknownProgram program w.bank.size)
    read fun w => Error.require (r.Within w.bank.tapeLength) (.registersExceed r w.bank.tapeLength)
    change (·.putRegisters program r)
  | .loadTape buffer => do
    read fun w => Error.require (buffer.size = w.store.cells.size)
      (.cellCount w.store.cells.size buffer.size)
    forM buffer.toList.zipIdx fun (value, slot) => change (·.setCell slot value.toUInt8)
  | .resetRegisters => do
    let programs ← read fun w => .ok w.bank.size
    forM (List.range programs) fun program => change (·.putRegisters program .start)

def run (e : Edit) (w : World) : Except Error Unit × World := Editing.run e.inPlace w

/-- All that an edit checks. -/
def check (w : World) : Edit → Except Error Unit
  | .setRegisters program r => do
    Error.require (program < w.bank.size) (.unknownProgram program w.bank.size)
    Error.require (r.Within w.bank.tapeLength) (.registersExceed r w.bank.tapeLength)
  | .loadTape buffer =>
    Error.require (buffer.size = w.store.cells.size) (.cellCount w.store.cells.size buffer.size)
  | .resetRegisters => return

/-- All that an edit changes once it is accepted. -/
def effect (w : World) : Edit → World
  | .setRegisters program r => w.putRegisters program r
  | .loadTape buffer => { w with store := w.store.overwrite buffer }
  | .resetRegisters => w.resetRegisters

end Edit

namespace World

private theorem foldl_setCell (values : List (UInt32 × Nat)) (w : World) :
    values.foldl (fun w entry => w.setCell entry.2 entry.1.toUInt8) w =
      { w with
        store := values.foldl (fun s (value, slot) => s.setSlot slot value.toUInt8) w.store } := by
  induction values generalizing w with
  | nil => rfl
  | cons entry values ih => exact ih (w.setCell entry.2 entry.1.toUInt8)

private theorem foldl_putRegisters (programs : List Nat) (r : Registers) (w : World) :
    programs.foldl (fun w program => w.putRegisters program r) w =
      { w with bank := programs.foldl (fun b program => b.put program r) w.bank } := by
  induction programs generalizing w with
  | nil => rfl
  | cons p programs ih => exact ih (w.putRegisters p r)

end World

namespace Edit

/-- An edit that is refused leaves the world as it was, since all checks come before the first
change. -/
theorem run_eq (e : Edit) (w : World) :
    e.run w =
      match e.check w with
      | .ok () => (.ok (), e.effect w)
      | .error cause => (.error cause, w) := by
  unfold run
  match e with
  | .setRegisters program r =>
    rw [inPlace, check, Editing.run_read_then]
    cases Error.require (program < w.bank.size) (.unknownProgram program w.bank.size) with
    | error cause => rfl
    | ok =>
      dsimp only [ok_bind]
      rw [Editing.run_read_then]
      cases Error.require (r.Within w.bank.tapeLength)
        (.registersExceed r w.bank.tapeLength) <;> rfl
  | .loadTape buffer =>
    rw [inPlace, check, Editing.run_read_then]
    cases Error.require (buffer.size = w.store.cells.size)
      (.cellCount w.store.cells.size buffer.size) with
    | error cause => rfl
    | ok =>
      dsimp only
      rw [Editing.run_forM_change fun (entry : UInt32 × Nat) w =>
        w.setCell entry.2 entry.1.toUInt8, World.foldl_setCell]
      rfl
  | .resetRegisters =>
    rw [inPlace, check, Editing.run_read_then]
    dsimp only [pure_eq_ok]
    rw [Editing.run_forM_change fun program w => w.putRegisters program .start,
      World.foldl_putRegisters, RegisterBank.foldl_put_start]
    rfl

private theorem run_result (e : Edit) (w : World) : (e.run w).1 = e.check w := by
  rw [run_eq]
  cases e.check w <;> rfl

private theorem run_of_ok {e : Edit} {w : World} (h : e.check w = .ok ()) :
    e.run w = (.ok (), e.effect w) := by
  rw [run_eq, h]

private theorem run_of_error {e : Edit} {w : World} {cause : Error} (h : e.check w = .error cause) :
    e.run w = (.error cause, w) := by
  rw [run_eq, h]

end Edit

/-! ## What is accepted, and what changes -/

def Reply.ofEdit : Except Error Unit → Reply
  | .ok () => .done
  | .error cause => .refused cause

namespace Edit

private theorem perform_call (e : Edit) (w : World) :
    w.perform e.call = .ok (.ofEdit (e.run w).1, (e.run w).2) := by
  match e with
  | .setRegisters program r =>
    rw [run_eq, check, call, World.perform, World.setRegisters, RegisterBank.set]
    by_cases hprogram : program < w.bank.size
    · by_cases hwithin : r.Within w.bank.tapeLength
      · rw [Error.require_eq_ok hprogram, Error.require_eq_ok hwithin]
        rfl
      · rw [Error.require_eq_ok hprogram, Error.require_eq_error hwithin]
        rfl
    · rw [Error.require_eq_error hprogram]
      rfl
  | .loadTape buffer =>
    rw [run_eq, check, call, World.perform, World.loadTape, Store.writeCells_eq]
    by_cases hsize : buffer.size = w.store.cells.size
    · rw [Error.require_eq_ok hsize]
      rfl
    · rw [Error.require_eq_error hsize]
      rfl
  | .resetRegisters =>
    rw [run_eq]
    rfl

/-- The edits that suit the number of programs and their tape length. -/
def Accepted (w : World) : Edit → Prop
  | .setRegisters program r => program < w.torus.size ∧ r.Within w.config.tapeLength
  | .loadTape buffer => buffer.size = w.torus.size * w.config.tapeLength
  | .resetRegisters => True

instance (w : World) (e : Edit) : Decidable (e.Accepted w) :=
  match e with
  | .setRegisters _ _ => inferInstanceAs (Decidable (_ ∧ _))
  | .loadTape _ => inferInstanceAs (Decidable (_ = _))
  | .resetRegisters => inferInstanceAs (Decidable True)

/-- The flat tapes that an edit leads to. -/
def tapes (w : World) : Edit → Array UInt32
  | .loadTape buffer => buffer.map (· % 256)
  | .setRegisters _ _ | .resetRegisters => w.store.snapshot

/-- The registers of a program that an edit leads to. -/
def registers (w : World) (program : Nat) : Edit → Except Fault Registers
  | .setRegisters changed r => if program = changed then .ok r else w.bank.get program
  | .loadTape _ => w.bank.get program
  | .resetRegisters => (w.bank.get program).map fun _ => .start

/-- The second world is the first with the edit, and differs in nothing else. -/
structure Edited (e : Edit) (w w' : World) : Prop where
  config_eq : w'.config = w.config
  torus_eq : w'.torus = w.torus
  ticks_eq : w'.ticks = w.ticks
  store_shape : w'.store.SameShape w.store
  bank_size : w'.bank.size = w.bank.size
  bank_tapeLength : w'.bank.tapeLength = w.bank.tapeLength
  tapes_eq : w'.store.snapshot = e.tapes w
  registers_eq : ∀ program, w'.bank.get program = e.registers w program

variable {w : World}

private theorem check_eq_ok_iff (h : w.Sound) (e : Edit) : e.check w = .ok () ↔ e.Accepted w := by
  match e with
  | .setRegisters program r =>
    simp only [check, bind_eq_ok_iff, Error.require_eq_ok_iff, Accepted, h.bank_size,
      h.bank_tapeLength, exists_and_left, exists_const]
  | .loadTape buffer =>
    rw [check, Error.require_eq_ok_iff, Accepted, w.store.size_eq, h.programs_eq, h.tapeLength_eq]
  | .resetRegisters => exact iff_true_intro rfl

private theorem onlyRefuses_check (e : Edit) (w : World) : Error.OnlyRefuses (e.check w) := by
  match e with
  | .setRegisters program r =>
    exact (Error.onlyRefuses_require _ _).bind fun _ => Error.onlyRefuses_require _ _
  | .loadTape buffer => exact Error.onlyRefuses_require _ _
  | .resetRegisters => exact Error.onlyRefuses_ok _

private theorem edited_effect (h : w.Sound) {e : Edit} (haccepted : e.Accepted w) :
    e.Edited w (e.effect w) := by
  match e with
  | .setRegisters changed r =>
    refine ⟨rfl, rfl, rfl, .refl _, RegisterBank.size_put .., rfl, rfl, fun program => ?_⟩
    have hchanged : changed < w.bank.size := h.bank_size ▸ haccepted.1
    rw [registers]
    split
    · next hsame =>
      subst hsame
      exact RegisterBank.get_put_self hchanged
    · next hother => exact RegisterBank.get_put_of_ne (Ne.symm hother)
  | .loadTape buffer =>
    have hsize : buffer.size = w.store.cells.size := by
      rw [w.store.size_eq, h.programs_eq, h.tapeLength_eq]
      exact haccepted
    exact ⟨rfl, rfl, rfl, Store.overwrite_sameShape .., rfl, rfl,
      Store.snapshot_overwrite hsize, fun _ => rfl⟩
  | .resetRegisters =>
    exact ⟨rfl, rfl, rfl, .refl _, RegisterBank.size_reset _, rfl, rfl,
      RegisterBank.get_reset _⟩

/-! ## The order of edits -/

/-- In both orders the edits lead to the same world, and each is made or refused as it is
without the other. -/
structure Commutes (w : World) (a b : Edit) : Prop where
  world_eq : (b.run (a.run w).2).2 = (a.run (b.run w).2).2
  first_eq : (a.run (b.run w).2).1 = (a.run w).1
  second_eq : (b.run (a.run w).2).1 = (b.run w).1

/-- No edit changes what edits are checked against. -/
theorem check_effect (a b : Edit) (w : World) : a.check (b.effect w) = a.check w := by
  have hbank : (b.effect w).bank.size = w.bank.size ∧
      (b.effect w).bank.tapeLength = w.bank.tapeLength := by
    match b with
    | .setRegisters program r => exact ⟨RegisterBank.size_put .., rfl⟩
    | .loadTape buffer => exact ⟨rfl, rfl⟩
    | .resetRegisters => exact ⟨RegisterBank.size_reset _, rfl⟩
  have hstore : (b.effect w).store.cells.size = w.store.cells.size := by
    match b with
    | .setRegisters program r => rfl
    | .loadTape buffer => exact Store.size_overwrite ..
    | .resetRegisters => rfl
  cases a <;> simp only [check, hbank, hstore]

private theorem check_run (a b : Edit) (w : World) : a.check (b.run w).2 = a.check w := by
  cases hb : b.check w with
  | ok => rw [run_of_ok hb, check_effect]
  | error cause => rw [run_of_error hb]

private theorem commutes_of_effect {a b : Edit}
    (h : b.effect (a.effect w) = a.effect (b.effect w)) :
    Commutes w a b where
  first_eq := by rw [run_result, run_result, check_run]
  second_eq := by rw [run_result, run_result, check_run]
  world_eq := by
    have hab := check_run a b w
    have hba := check_run b a w
    cases ha : a.check w with
    | ok =>
      rw [ha] at hab
      rw [run_of_ok hab]
      cases hb : b.check w with
      | ok =>
        rw [hb] at hba
        rw [run_of_ok hba, run_of_ok ha, run_of_ok hb]
        exact h
      | error cause =>
        rw [hb] at hba
        rw [run_of_error hba, run_of_ok ha, run_of_error hb]
    | error cause =>
      rw [ha] at hab
      rw [run_of_error hab, run_of_error ha]

private theorem commutes_setRegisters {p q : Nat} (h : p ≠ q) (r r' : Registers) :
    Commutes w (.setRegisters p r) (.setRegisters q r') :=
  commutes_of_effect (w.putRegisters_comm h r r')

private theorem commutes_loadTape (program : Nat) (r : Registers) (buffer : Array UInt32) :
    Commutes w (.setRegisters program r) (.loadTape buffer) :=
  commutes_of_effect rfl

private theorem loadTape_loadTape {first second : Array UInt32} (h : first.size = second.size) :
    (loadTape second).run ((loadTape first).run w).2 = (loadTape second).run w := by
  cases hfirst : (loadTape first).check w with
  | error cause => rw [run_of_error hfirst]
  | ok =>
    have hsize : second.size = w.store.cells.size := h ▸ Error.require_eq_ok_iff.1 hfirst
    have hsecond : (loadTape second).check w = .ok () := Error.require_eq_ok hsize
    have hagain := (check_effect (.loadTape second) (.loadTape first) w).trans hsecond
    rw [run_of_ok hfirst, run_of_ok hsecond, run_of_ok hagain, effect, effect, effect,
      Store.overwrite_overwrite hsize]

/-- An edit of a reachable world is made in full if it is accepted, and changes its own part
alone; a refused one leaves the whole world as it was.  Edits of different programs, and of
registers and tapes, can change places, and a load undoes another of its size. -/
theorem made_in_full_or_refused (h : w.Reachable) :
    (∀ e : Edit,
      w.perform e.call = .ok (.ofEdit (e.run w).1, (e.run w).2) ∧
      (e.Accepted w → (e.run w).1 = .ok () ∧ e.Edited w (e.run w).2) ∧
      (¬e.Accepted w → ∃ cause, e.run w = (.error (.config cause), w))) ∧
    (∀ p q r r', p ≠ q → Commutes w (.setRegisters p r) (.setRegisters q r')) ∧
    (∀ program r buffer, Commutes w (.setRegisters program r) (.loadTape buffer)) ∧
    ∀ first second, first.size = second.size →
      (loadTape second).run ((loadTape first).run w).2 = (loadTape second).run w := by
  have hsound := h.sound
  refine ⟨fun e => ⟨e.perform_call w, fun haccepted => ?_, fun hrefused => ?_⟩,
    fun p q r r' hne => commutes_setRegisters hne r r', commutes_loadTape,
    fun first second => loadTape_loadTape⟩
  · rw [run_of_ok ((check_eq_ok_iff hsound e).2 haccepted)]
    exact ⟨rfl, edited_effect hsound haccepted⟩
  · obtain ⟨cause, hcheck⟩ := (onlyRefuses_check e w).exists_cause fun _ hok =>
      hrefused ((check_eq_ok_iff hsound e).1 hok)
    exact ⟨cause, run_of_error hcheck⟩

/-- Two programs of three cells: an unknown program, a register behind the tape and a buffer
that is too short are refused. -/
theorem made_in_full_or_refused_pair :
    ∃ w, World.ofConfig ⟨3, 2, 1, .runToCompletion, none⟩ = .ok w ∧
      Edited (.setRegisters 1 ⟨2, 0, 1⟩) w ((setRegisters 1 ⟨2, 0, 1⟩).run w).2 ∧
      Edited (.loadTape #[91, 46, 93, 44, 0, 263]) w
        ((loadTape #[91, 46, 93, 44, 0, 263]).run w).2 ∧
      (∃ cause, (setRegisters 2 .start).run w = (.error (.config cause), w)) ∧
      (∃ cause, (setRegisters 0 ⟨0, 3, 0⟩).run w = (.error (.config cause), w)) ∧
      (∃ cause, (loadTape #[91, 46, 93]).run w = (.error (.config cause), w)) ∧
      Commutes w (.setRegisters 0 ⟨1, 1, 1⟩) (.setRegisters 1 ⟨2, 0, 1⟩) ∧
      Commutes w (.setRegisters 0 ⟨0, 3, 0⟩) (.loadTape #[91, 46, 93, 44, 0, 263]) ∧
      (loadTape #[1, 2, 3, 4, 5, 256]).run ((loadTape #[91, 46, 93, 44, 0, 263]).run w).2 =
        (loadTape #[1, 2, 3, 4, 5, 256]).run w := by
  have hbuilt : World.ofConfig ⟨3, 2, 1, .runToCompletion, none⟩ = .ok _ := rfl
  refine ⟨_, hbuilt, ?_⟩
  obtain ⟨hedit, hregisters, htapes, hloads⟩ := made_in_full_or_refused (.ofConfig hbuilt)
  have haccepted {e : Edit} (h : e.Accepted _) := ((hedit e).2.1 h).2
  have hrefused {e : Edit} (h : ¬e.Accepted _) := (hedit e).2.2 h
  exact ⟨haccepted (by decide), haccepted (by decide), hrefused (by decide),
    hrefused (by decide), hrefused (by decide), hregisters _ _ _ _ Nat.zero_ne_one,
    htapes _ _ _, hloads _ _ rfl⟩

end Edit

end TapeTorus
