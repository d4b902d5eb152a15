import TapeTorus.Proofs.Drops

/-!
# Seeding succeeds

Fresh cells can be drawn for every store that exists, because its memory is there and
nothing else can be wanting.  All of them hold bytes, as the random bytes and the
symbols do.
-/

namespace TapeTorus.Seeder

variable {σ : Type} {G : Generator σ}

/-- Fresh cells can be drawn for every store, as many as it has. -/
theorem fill_ok (G : Generator σ) (d : Seeder) (s : Store) (seed : UInt64) :
    ∃ cells, d.fill G s.tapeLength s.programs seed = .ok cells ∧ cells.size = s.cells.size := by
  have hsize : s.tapeLength * s.programs = s.cells.size := by
    rw [s.size_eq, Nat.mul_comm]
  have hlimit : s.tapeLength * s.programs < Size.limit := by
    rw [Nat.mul_comm]
    exact s.size_lt_limit
  have htable : Size.table s.cells.size Store.cellBytes = .ok () :=
    Size.table_eq_ok (s.size_eq ▸ s.fits)
  obtain ⟨cells, hfill, hcells⟩ := d.fill_eq G hlimit seed
  rw [hsize, htable] at hfill
  exact ⟨cells, hfill, hcells.size_eq.trans hsize⟩

/-! ## Fresh cells are bytes -/

def Bytes (cells : Array UInt32) : Prop := ∀ value ∈ cells, value.toNat < 256

private theorem toNat_byte_lt (b : UInt8) : b.toUInt32.toNat < 256 := by
  simpa using b.toNat_lt

theorem Bytes.overwrite {cells : Array UInt32} (h : Bytes cells) (start : Nat)
    (ds : List Draw) : Bytes (overwrite start cells ds) := by
  induction ds generalizing cells with
  | nil => exact h
  | cons d ds ih =>
    apply ih
    intro value hvalue
    rcases Array.mem_or_eq_of_mem_setIfInBounds hvalue with hold | rfl
    · exact h value hold
    · exact toNat_byte_lt d.symbol

private theorem bytes_raw (G : Generator σ) (total : Nat) (seed : UInt64) :
    Bytes (raw G total seed) := by
  intro value hvalue
  simp only [raw, List.mem_toArray, List.mem_map] at hvalue
  obtain ⟨b, -, rfl⟩ := hvalue
  exact toNat_byte_lt b

theorem Bytes.tape {cells : Array UInt32} (h : Bytes cells) (tapeLength p : Nat) :
    Bytes (tape cells tapeLength p) := by
  intro value hvalue
  obtain ⟨o, ho, rfl⟩ := Array.mem_extract_iff_getElem.1 hvalue
  exact h _ (Array.getElem_mem _)

theorem Fills.bytes {d : Seeder} {tapeLength programs : Nat} {seed : UInt64}
    {cells : Array UInt32} (h : d.Fills G tapeLength programs seed cells) : Bytes cells := by
  have hraw := bytes_raw G (tapeLength * programs) seed
  rcases Nat.eq_zero_or_pos tapeLength with hzero | hpos
  · rw [h.eq_raw (.inr hzero)]
    exact hraw
  · intro value hvalue
    obtain ⟨i, hi, rfl⟩ := Array.mem_iff_getElem.1 hvalue
    have hprogram : i / tapeLength < programs := by
      apply Nat.div_lt_of_lt_mul
      rw [← h.size_eq]
      exact hi
    have hcell : (Seeder.tape cells tapeLength (i / tapeLength))[i % tapeLength]? =
        cells[i / tapeLength * tapeLength + i % tapeLength]? := tape_getElem? (Nat.mod_lt i hpos)
    rw [Nat.div_add_mod', Array.getElem?_eq_getElem hi, h.tape_eq _ hprogram] at hcell
    exact (hraw.tape _ _).overwrite _ _ _ (Array.mem_of_getElem? hcell)

theorem fill_bytes {d : Seeder} {tapeLength programs : Nat} {seed : UInt64}
    {cells : Array UInt32} (h : d.fill G tapeLength programs seed = .ok cells) : Bytes cells := by
  have hlimit : tapeLength * programs < Size.limit := by
    unfold fill at h
    obtain ⟨total, htotal, -⟩ := bind_eq_ok_iff.1 h
    exact (Size.mul_eq_ok_iff.1 htotal).1
  obtain ⟨cells', hfill, hcells⟩ := d.fill_eq G hlimit seed
  rw [h] at hfill
  cases htable : Size.table (tapeLength * programs) Store.cellBytes with
  | ok u =>
    rw [htable] at hfill
    obtain rfl : cells = cells' := Except.ok.inj hfill
    exact hcells.bytes
  | error f =>
    rw [htable] at hfill
    cases hfill

end TapeTorus.Seeder
