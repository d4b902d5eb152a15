import TapeTorus.Proofs.Buffers

/-!
# Which worlds can be built

A configuration is simulatable if its sizes are positive and small enough and its
bounds are not zero, in exact numbers.  Worlds are built from just these
configurations, and from tapes and registers that fit them; everything else is
refused.  The checks come in an order in which no product leaves the range of sizes,
so the only fault is a table that no memory can hold.
-/

namespace TapeTorus

open Error (OnlyRefuses onlyRefuses_ok onlyRefuses_require)

/-! ## Configurations -/

namespace Config

/-- The sizes are positive, a register can name every cell of a tape, the cells of all
tapes can be counted, and neither the workers nor the iterations are bounded by zero. -/
structure Simulatable (c : Config) : Prop where
  tapeLength_pos : 1 ≤ c.tapeLength
  tapeLength_lt : c.tapeLength < 2 ^ 32
  width_pos : 1 ≤ c.width
  height_pos : 1 ≤ c.height
  cells_lt : c.width * c.height * c.tapeLength < 2 ^ 64
  threads_ne : c.threads ≠ some 0
  maxIterations_ne : c.exec.maxIterations ≠ some 0

private theorem Simulatable.programs_lt {c : Config} (h : c.Simulatable) :
    c.width * c.height < Size.limit :=
  Nat.lt_of_le_of_lt (Nat.le_mul_of_pos_right _ h.tapeLength_pos) h.cells_lt

theorem Simulatable.programs_pos {c : Config} (h : c.Simulatable) : 0 < c.width * c.height :=
  Nat.mul_pos h.width_pos h.height_pos

private theorem Simulatable.cells_eq_ok {c : Config} (h : c.Simulatable) :
    Size.mul (c.width * c.height) c.tapeLength = .ok (c.width * c.height * c.tapeLength) :=
  Size.mul_eq_ok h.cells_lt

theorem validate_eq_ok_iff_simulatable {c : Config} : c.validate = .ok () ↔ c.Simulatable := by
  rw [validate_eq_ok_iff]
  constructor
  · rintro ⟨⟨hpos, hlt⟩, ⟨hwidth, hheight⟩, -, hcells, hthreads, hiterations⟩
    exact ⟨hpos, hlt, hwidth, hheight, hcells, hthreads, hiterations⟩
  · intro h
    exact ⟨⟨h.tapeLength_pos, h.tapeLength_lt⟩, ⟨h.width_pos, h.height_pos⟩, h.programs_lt,
      h.cells_lt, h.threads_ne, h.maxIterations_ne⟩

private theorem onlyRefuses_validate (c : Config) : OnlyRefuses c.validate := by
  unfold validate
  apply (onlyRefuses_require _ _).bind
  intro _
  apply (onlyRefuses_require _ _).bind
  intro _
  apply (onlyRefuses_require _ _).bind
  intro _
  apply (onlyRefuses_require _ _).bind
  intro _
  apply (onlyRefuses_require _ _).bind
  intro _
  apply (onlyRefuses_require _ _).bind
  intro _
  exact onlyRefuses_require _ _

theorem validate_eq_error {c : Config} (h : ¬c.Simulatable) :
    ∃ cause, c.validate = .error (.config cause) := by
  apply c.onlyRefuses_validate.exists_cause
  intro _ hvalid
  exact h (validate_eq_ok_iff_simulatable.1 hvalid)

/-- The table of all cells can exist. -/
def CellsExist (c : Config) : Prop :=
  c.width * c.height * c.tapeLength * Store.cellBytes ≤ Size.tableLimit

/-- The table of all registers can exist. -/
def RegistersExist (c : Config) : Prop :=
  c.width * c.height * Registers.bytes ≤ Size.tableLimit

/-- The buffers fit the configuration: one value for each cell and, if there are
registers, three for each program, all of which name cells of a tape. -/
structure Admits (c : Config) (tape : Array UInt32) (registers : Option (Array UInt32)) :
    Prop where
  simulatable : c.Simulatable
  tape_size : tape.size = c.width * c.height * c.tapeLength
  registers_size : ∀ flat ∈ registers, flat.size = 3 * (c.width * c.height)
  registers_lt : ∀ flat ∈ registers, ∀ value ∈ flat, value.toNat < c.tapeLength

private theorem torus_of_simulatable {c : Config} (h : c.Simulatable) :
    ∃ t, Torus.ofSides c.width c.height = .ok t ∧ (t.width = c.width ∧ t.height = c.height) ∧
      t.size = c.width * c.height := by
  have hsides := Torus.ofSides_eq_ok h.width_pos h.height_pos h.programs_lt
  exact ⟨_, hsides, ⟨rfl, rfl⟩, rfl⟩

end Config

theorem Torus.eq_of_sides {t u : Torus} (hwidth : t.width = u.width)
    (hheight : t.height = u.height) : t = u := by
  cases t
  cases u
  simp only at hwidth hheight
  subst hwidth hheight
  rfl

/-! ## Worlds -/

namespace World

/-- A world as it is built: with the sizes of the configuration, the given flat tapes
and registers, and no ticks. -/
structure BuiltFrom (w : World) (c : Config) (tape : Array UInt32) (registers : List UInt32) :
    Prop where
  config_eq : w.config = c
  width_eq : w.torus.width = c.width
  height_eq : w.torus.height = c.height
  tapeLength_eq : w.store.tapeLength = c.tapeLength
  programs_eq : w.store.programs = c.width * c.height
  snapshot_eq : w.store.snapshot = tape
  bank_tapeLength : w.bank.tapeLength = c.tapeLength
  registers_eq : w.bank.toFlat = registers
  ticks_eq : w.ticks = 0

theorem BuiltFrom.unique {v w : World} {c : Config} {tape : Array UInt32}
    {registers : List UInt32} (hv : v.BuiltFrom c tape registers)
    (hw : w.BuiltFrom c tape registers) : v = w := by
  have hconfig : v.config = w.config := hv.config_eq.trans hw.config_eq.symm
  have htorus : v.torus = w.torus :=
    Torus.eq_of_sides (hv.width_eq.trans hw.width_eq.symm) (hv.height_eq.trans hw.height_eq.symm)
  have hshape : v.store.SameShape w.store :=
    ⟨hv.tapeLength_eq.trans hw.tapeLength_eq.symm, hv.programs_eq.trans hw.programs_eq.symm⟩
  have hstore : v.store = w.store :=
    Store.eq_of_snapshot hshape (hv.snapshot_eq.trans hw.snapshot_eq.symm)
  have hbank : v.bank = w.bank :=
    RegisterBank.eq_of_toFlat (hv.bank_tapeLength.trans hw.bank_tapeLength.symm)
      (hv.registers_eq.trans hw.registers_eq.symm)
  have hticks : v.ticks = w.ticks := hv.ticks_eq.trans hw.ticks_eq.symm
  cases v
  cases w
  simp only at hconfig htorus hstore hbank hticks
  rw [hconfig, htorus, hstore, hbank, hticks]

variable {c : Config} {tape : Array UInt32} {registers : Option (Array UInt32)}

/-! ### Worlds of zeros -/

theorem ofConfig_eq_ok (h : c.Simulatable) (hcells : c.CellsExist)
    (hregisters : c.RegistersExist) :
    ∃ w, ofConfig c = .ok w ∧
      w.BuiltFrom c (Array.replicate (c.width * c.height * c.tapeLength) 0)
        (List.replicate (3 * (c.width * c.height)) 0) := by
  obtain ⟨t, ht, ⟨hwidth, hheight⟩, hsize⟩ := Config.torus_of_simulatable h
  obtain ⟨s, hs, hlength, hprograms, hzero⟩ :=
    Store.zeroed_eq_ok h.tapeLength_pos h.programs_pos hcells
  have hbank := RegisterBank.fresh_eq_ok_iff.2
    ⟨hregisters, Eq.refl (RegisterBank.zeroed (c.width * c.height) c.tapeLength)⟩
  refine ⟨⟨c, t, s, RegisterBank.zeroed (c.width * c.height) c.tapeLength, 0⟩, ?_, ?_⟩
  · rw [ofConfig, Config.validate_eq_ok_iff_simulatable.2 h, ok_bind, ht, ok_bind, hsize, hs,
      ok_bind, hbank]
    rfl
  · refine ⟨rfl, hwidth, hheight, hlength, hprograms, ?_, rfl, ?_, rfl⟩
    · rw [Store.snapshot, hzero, Array.map_replicate]
      rfl
    · rw [RegisterBank.toFlat_eq, RegisterBank.zeroed, Array.toList_replicate,
        RegisterBank.valuesOf_replicate_start]

private theorem ofConfig_eq_capacity (h : c.Simulatable)
    (hmemory : ¬(c.CellsExist ∧ c.RegistersExist)) :
    ofConfig c = .error (.fault .capacity) := by
  obtain ⟨t, ht, -, hsize⟩ := Config.torus_of_simulatable h
  rw [ofConfig, Config.validate_eq_ok_iff_simulatable.2 h, ok_bind, ht, ok_bind, hsize]
  by_cases hcells : c.CellsExist
  · have hregisters : ¬c.RegistersExist := fun hr => hmemory ⟨hcells, hr⟩
    obtain ⟨s, hs, -⟩ := Store.zeroed_eq_ok h.tapeLength_pos h.programs_pos hcells
    rw [hs, ok_bind, RegisterBank.fresh_eq_error hregisters]
    rfl
  · rw [Store.zeroed_eq_error h.tapeLength_pos h.programs_pos h.cells_lt hcells]
    rfl

private theorem ofConfig_eq_refused (h : ¬c.Simulatable) :
    ∃ cause, ofConfig c = .error (.config cause) := by
  obtain ⟨cause, hcause⟩ := Config.validate_eq_error h
  exact ⟨cause, by rw [ofConfig, hcause]; rfl⟩

/-! ### Worlds of buffers -/

private theorem ofBuffers_of_tape (h : c.Simulatable) (hcells : c.CellsExist)
    (htape : tape.size = c.width * c.height * c.tapeLength) :
    ∃ t s, (t.width = c.width ∧ t.height = c.height) ∧
      (s.tapeLength = c.tapeLength ∧ s.programs = c.width * c.height ∧
        s.cells = tape.map UInt32.toUInt8) ∧
      ∀ registers, ofBuffers c tape registers =
        RegisterBank.ofBuffer (c.width * c.height) c.tapeLength registers >>= fun b =>
          Error.require (b.size = c.width * c.height)
            (.registerCount b.size (c.width * c.height)) >>= fun _ =>
              .ok ⟨c, t, s, b, 0⟩ := by
  obtain ⟨t, ht, ⟨hwidth, hheight⟩, hsize⟩ := Config.torus_of_simulatable h
  obtain ⟨s, hs, hlength, hprograms, hbytes⟩ :=
    Store.ofCells_eq_ok h.tapeLength_pos h.programs_pos htape hcells
  refine ⟨t, s, ⟨hwidth, hheight⟩, ⟨hlength, hprograms, hbytes⟩, fun registers => ?_⟩
  rw [ofBuffers, Config.validate_eq_ok_iff_simulatable.2 h, ok_bind, ht, ok_bind, hsize,
    h.cells_eq_ok, Fault.lift_ok, ok_bind, Error.require_eq_ok htape, ok_bind, hs, ok_bind]
  rfl

/-- The registers that a world is given; without any, all of them are zero. -/
def registersOr (registers : Option (Array UInt32)) (programs : Nat) : List UInt32 :=
  match registers with
  | some flat => flat.toList
  | none => List.replicate (3 * programs) 0

theorem ofBuffers_eq_ok (h : c.Admits tape registers) (hcells : c.CellsExist)
    (hregisters : registers = none → c.RegistersExist) :
    ∃ w, ofBuffers c tape registers = .ok w ∧
      w.BuiltFrom c (tape.map (· % 256)) (registersOr registers (c.width * c.height)) := by
  obtain ⟨t, s, ⟨hwidth, hheight⟩, ⟨hlength, hprograms, hbytes⟩, hbuild⟩ :=
    ofBuffers_of_tape h.simulatable hcells h.tape_size
  obtain ⟨b, hb, hbank, hflat⟩ : ∃ b,
      RegisterBank.ofBuffer (c.width * c.height) c.tapeLength registers = .ok b ∧
        b.tapeLength = c.tapeLength ∧
        b.toFlat = registersOr registers (c.width * c.height) := by
    cases registers with
    | none =>
      refine ⟨_, RegisterBank.fresh_eq_ok_iff.2 ⟨hregisters rfl, rfl⟩, rfl, ?_⟩
      rw [RegisterBank.toFlat_eq, RegisterBank.zeroed, Array.toList_replicate,
        RegisterBank.valuesOf_replicate_start]
      rfl
    | some flat =>
      have hwhole : flat.size % 3 = 0 := by
        rw [h.registers_size flat rfl, Nat.mul_mod_right]
      have htriples : RegisterBank.valuesOf (RegisterBank.triplesOf flat.toList) = flat.toList :=
        RegisterBank.valuesOf_triplesOf hwhole
      refine ⟨⟨c.tapeLength, (RegisterBank.triplesOf flat.toList).toArray⟩,
        RegisterBank.ofFlat_eq_ok_iff.2 ⟨⟨hwhole, h.registers_lt flat rfl⟩, rfl, htriples⟩,
        rfl, htriples⟩
  have hcount : b.size = c.width * c.height := by
    have hlength := b.size_toFlat
    rw [hflat] at hlength
    cases registers with
    | none =>
      rw [registersOr, List.length_replicate] at hlength
      omega
    | some flat =>
      rw [registersOr, Array.length_toList, h.registers_size flat rfl] at hlength
      omega
  refine ⟨⟨c, t, s, b, 0⟩, ?_, rfl, hwidth, hheight, hlength, hprograms, ?_, hbank, hflat, rfl⟩
  · rw [hbuild, hb, ok_bind, Error.require_eq_ok hcount]
    rfl
  · exact Store.snapshot_of_cells hbytes

private theorem ofBuffers_eq_capacity (h : c.Admits tape none) (hcells : c.CellsExist)
    (hregisters : ¬c.RegistersExist) :
    ofBuffers c tape none = .error (.fault .capacity) := by
  obtain ⟨t, s, -, -, hbuild⟩ := ofBuffers_of_tape h.simulatable hcells h.tape_size
  rw [hbuild, RegisterBank.ofBuffer, RegisterBank.fresh_eq_error hregisters]
  rfl

private theorem admits_of_ofFlat {flat : Array UInt32} {b : RegisterBank} (h : c.Simulatable)
    (htape : tape.size = c.width * c.height * c.tapeLength)
    (hflat : RegisterBank.ofFlat flat c.tapeLength = .ok b)
    (hcount : b.size = c.width * c.height) : c.Admits tape (some flat) := by
  obtain ⟨⟨-, hlt⟩, -, hvalues⟩ := RegisterBank.ofFlat_eq_ok_iff.1 hflat
  have hsize : flat.size = 3 * (c.width * c.height) := by
    rw [← hcount, ← b.size_toFlat, hvalues, Array.length_toList]
  refine ⟨h, htape, ?_, ?_⟩
  · rintro flat' ⟨⟩
    exact hsize
  · rintro flat' ⟨⟩
    exact hlt

private theorem refused_of_config (h : ¬c.Simulatable) :
    ∃ cause, ofBuffers c tape registers = .error (.config cause) := by
  obtain ⟨cause, hcause⟩ := Config.validate_eq_error h
  exact ⟨cause, by rw [ofBuffers, hcause]; rfl⟩

private theorem refused_of_tape (h : c.Simulatable)
    (htape : tape.size ≠ c.width * c.height * c.tapeLength) :
    ∃ cause, ofBuffers c tape registers = .error (.config cause) := by
  obtain ⟨t, ht, -, hsize⟩ := Config.torus_of_simulatable h
  rw [ofBuffers, Config.validate_eq_ok_iff_simulatable.2 h, ok_bind, ht, ok_bind, hsize,
    h.cells_eq_ok, Fault.lift_ok, ok_bind, Error.require_eq_error htape]
  exact ⟨_, rfl⟩

private theorem refused_of_registers {flat : Array UInt32} (h : c.Simulatable)
    (hcells : c.CellsExist)
    (htape : tape.size = c.width * c.height * c.tapeLength)
    (hflat : ¬c.Admits tape (some flat)) :
    ∃ cause, ofBuffers c tape (some flat) = .error (.config cause) := by
  obtain ⟨t, s, -, -, hbuild⟩ := ofBuffers_of_tape h hcells htape
  rw [hbuild, RegisterBank.ofBuffer]
  refine Error.OnlyRefuses.exists_cause ?_ ?_
  · apply (RegisterBank.onlyRefuses_ofFlat flat c.tapeLength).bind
    intro b
    apply (onlyRefuses_require _ _).bind
    intro _
    exact onlyRefuses_ok _
  · intro w hw
    obtain ⟨b, hb, hw⟩ := bind_eq_ok_iff.1 hw
    obtain ⟨_, hcount, -⟩ := bind_eq_ok_iff.1 hw
    exact hflat (admits_of_ofFlat h htape hb (Error.require_eq_ok_iff.1 hcount))

private theorem ofBuffers_eq_refused (h : ¬c.Admits tape registers)
    (hbuffer : tape.size * Store.cellBytes ≤ Size.tableLimit) :
    ∃ cause, ofBuffers c tape registers = .error (.config cause) := by
  by_cases hsimulatable : c.Simulatable
  · by_cases htape : tape.size = c.width * c.height * c.tapeLength
    · have hcells : c.CellsExist := by
        rw [Config.CellsExist, ← htape]
        exact hbuffer
      cases registers with
      | none =>
        have hadmits : c.Admits tape none := ⟨hsimulatable, htape, nofun, nofun⟩
        exact absurd hadmits h
      | some flat => exact refused_of_registers hsimulatable hcells htape h
    · exact refused_of_tape hsimulatable htape
  · exact refused_of_config hsimulatable

/-- A world of zeros is built from just the simulatable configurations, and a world of
buffers if the buffers fit such a configuration, too; all else is refused.  No sum or
product overflows and nothing outside a table is asked for: the only fault is a table
that memory cannot hold.  The world has the low bytes of the tape values and the
registers as they are given, or zeros, and has run no ticks. -/
theorem built_iff_simulatable (c : Config) :
    Error.Decides (ofConfig c) c.Simulatable (c.CellsExist ∧ c.RegistersExist)
      (·.BuiltFrom c (Array.replicate (c.width * c.height * c.tapeLength) 0)
        (List.replicate (3 * (c.width * c.height)) 0)) ∧
    ∀ tape registers, tape.size * Store.cellBytes ≤ Size.tableLimit →
      Error.Decides (ofBuffers c tape registers) (c.Admits tape registers)
        (registers = none → c.RegistersExist)
        (·.BuiltFrom c (tape.map (· % 256)) (registersOr registers (c.width * c.height))) := by
  constructor
  · apply Error.Decides.of_cases
    · rintro haccepted ⟨hcells, hregisters⟩
      exact ofConfig_eq_ok haccepted hcells hregisters
    · intro haccepted hmemory
      exact ofConfig_eq_capacity haccepted hmemory
    · intro hrefused
      exact ofConfig_eq_refused hrefused
  · intro tape registers hbuffer
    have hcells (h : c.Admits tape registers) : c.CellsExist := by
      rw [Config.CellsExist, ← h.tape_size]
      exact hbuffer
    apply Error.Decides.of_cases
    · intro haccepted hmemory
      exact ofBuffers_eq_ok haccepted (hcells haccepted) hmemory
    · intro haccepted hmemory
      obtain ⟨rfl, hregisters⟩ := Classical.not_imp.1 hmemory
      exact ofBuffers_eq_capacity haccepted (hcells haccepted) hregisters
    · intro hrefused
      exact ofBuffers_eq_refused hrefused hbuffer

/-- Values above a byte lose their high part, and registers are kept; a grid whose
programs cannot be counted is refused, and so is a register behind the tape's end. -/
theorem built_iff_simulatable_edges :
    (∃ w, ofBuffers ⟨2, 2, 1, .persistent, some 4⟩ #[300, 43, 7, 512] (some #[1, 0, 1, 0, 0, 0]) =
        .ok w ∧ w.store.snapshot = #[44, 43, 7, 0] ∧ w.bank.toFlat = [1, 0, 1, 0, 0, 0]) ∧
    (∃ cause, ofBuffers ⟨1, 2 ^ 32, 2 ^ 32, .persistent, none⟩ #[] none =
      .error (.config cause)) ∧
    ∃ cause, ofBuffers ⟨2, 2, 1, .persistent, none⟩ #[0, 0, 0, 0] (some #[1, 0, 2, 0, 0, 0]) =
      .error (.config cause) := by
  refine ⟨?_, ?_, ?_⟩
  · have hsimulatable : Config.Simulatable ⟨2, 2, 1, .persistent, some 4⟩ := by
      constructor <;> decide
    have hadmits : Config.Admits ⟨2, 2, 1, .persistent, some 4⟩ #[300, 43, 7, 512]
        (some #[1, 0, 1, 0, 0, 0]) := by
      refine ⟨hsimulatable, rfl, ?_, ?_⟩
      · rintro _ ⟨⟩
        rfl
      · rintro _ ⟨⟩
        simp
    have hbuilt := (built_iff_simulatable ⟨2, 2, 1, .persistent, some 4⟩).2 #[300, 43, 7, 512]
      (some #[1, 0, 1, 0, 0, 0]) (by decide)
    obtain ⟨w, hw⟩ := hbuilt.ok_iff.2 ⟨hadmits, nofun⟩
    have hfrom := hbuilt.result_of_ok w hw
    exact ⟨w, hw, hfrom.snapshot_eq.trans (by simp), hfrom.registers_eq⟩
  · have hbuilt := (built_iff_simulatable ⟨1, 2 ^ 32, 2 ^ 32, .persistent, none⟩).2 #[] none
      (by decide)
    apply hbuilt.refused_iff.2
    intro h
    exact absurd h.simulatable.cells_lt (by decide)
  · have hbuilt := (built_iff_simulatable ⟨2, 2, 1, .persistent, none⟩).2 #[0, 0, 0, 0]
      (some #[1, 0, 2, 0, 0, 0]) (by decide)
    apply hbuilt.refused_iff.2
    intro h
    exact absurd (h.registers_lt _ rfl 2 (by simp)) (by decide)

end World
end TapeTorus
