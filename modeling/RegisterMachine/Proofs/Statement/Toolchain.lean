import RegisterMachine.Proofs.Assembly.Program
import RegisterMachine.Proofs.Machine.Refinement
import RegisterMachine.Proofs.Statement.Basic

/-!
# The toolchain

Statements go through every part: their source text is read and linked for the address that a machine loads programs
at, and the machine runs the bytes.  Assembler and machine share the format of programs by convention only; that they
agree on it is what the results here say.  Whatever the statements are, as long as labels are distinct and defined and
memory can be laid out, nothing fails before the run, and the run does what executing the statements does
(`run_of_source`).
-/

namespace RegisterMachine

open Assembling Execution

/-- What executing statements does on a machine with the given layout and number of registers: registers start at
zero, and the instructions are executed one after the other up to the first that does not complete. -/
def Statement.account (layout : Layout) (count : Nat) (statements : List Statement) : Account :=
  Account.ofInstructions layout .complete layout.instructionsStart (.initial count)
    (instructions layout.instructionsStart statements)

/-- Execution without a fault performs all instructions. -/
theorem Account.store_of_fault_eq_none {layout : Layout} {ending : Ending} {address : Int} {store : Store}
    {instructions : List Instruction} (hroom : store.pushed.length ≤ layout.capacity)
    (h : (ofInstructions layout ending address store instructions).fault = none) :
    (ofInstructions layout ending address store instructions).store =
      instructions.foldl Instruction.perform store := by
  induction instructions generalizing address store with
  | nil => rfl
  | cons instruction instructions ih =>
    cases hfault : instruction.fault? layout address store with
    | some fault =>
      rw [ofInstructions_of_fault hfault] at h
      cases h
    | none =>
      rw [ofInstructions_of_completes hfault] at h ⊢
      rw [List.foldl_cons, ← Instruction.effect_of_completes hroom hfault]
      exact ih (Instruction.pushed_effect_le layout hroom instruction) h

/-- A machine runs the bytes of instructions as the instructions are executed. -/
private theorem run_of_instructions {program : Array UInt8} {config : Config} {layout : Layout}
    {instructions : List Instruction} (hcount : config.registerCount.toNat ≤ maxRegisterCount)
    (hlayout : Layout.ofConfig program.size config = .ok layout)
    (hprogram : program.toList = instructions.flatMap Instruction.toBytes) :
    ∃ machine last, Machine.build program config = .ok machine ∧
      runToHalt.run machine = ended (Account.ofInstructions layout .complete layout.instructionsStart
        (.initial config.registerCount.toNat) instructions).fault () last ∧
      last.Holds (Account.ofInstructions layout .complete layout.instructionsStart
        (.initial config.registerCount.toNat) instructions).store := by
  obtain ⟨machine, hbuild, hmachine⟩ : ∃ machine, Machine.build program config = .ok machine ∧
      machine.memory.layout = layout := ⟨_, Machine.build_eq_ok_iff.2 ⟨hcount, layout, hlayout, rfl⟩, rfl⟩
  have hmatch := Machine.matches_of_build hbuild
  rw [hmachine] at hmatch
  have hlisting : Listing.ofBytes program.toList = ⟨instructions, .complete⟩ := by
    have happend := Listing.ofBytes_append instructions []
    rw [List.append_nil, Listing.ofBytes_nil, List.append_nil] at happend
    rw [hprogram, happend]
  have hstart : layout.instructionsEnd - program.toList.length = layout.instructionsStart := by
    have hend := hmatch.fits.instructionsEnd_eq
    rw [Array.length_toList]
    omega
  obtain ⟨last, left, hlast, hrun⟩ := run_runToHalt_of_matches hmatch
  rw [hstart, hlisting] at hlast hrun
  exact ⟨machine, last, hbuild, hrun, hlast.holds⟩

private theorem joined_map_source (chunks : List (List Statement)) :
    Chunk.joined (chunks.map Statement.source) = chunks.flatten.flatMap Statement.items := by
  induction chunks with
  | nil => rfl
  | cons chunk chunks ih =>
    rw [List.map_cons, Chunk.joined_cons, ih, List.flatten_cons, List.flatMap_append,
      Chunk.plain, (Chunk.ofSource_of_rendering (Statement.rendering_source chunk)).1]

/-- The source text of statements makes the bytes of their instructions, for any base that leaves room for them. -/
theorem exists_program_of_source (base : Int) {chunks : List (List Statement)}
    (hnodup : (chunks.flatten.filterMap Statement.definition?).Nodup)
    (hdefined : ∀ name ∈ chunks.flatten.filterMap Statement.reference?,
      name ∈ chunks.flatten.filterMap Statement.definition?)
    (hbase : 0 ≤ base) (hfits : base + Statement.totalSize chunks.flatten ≤ 2147483647) :
    ∃ assembly program emitted,
      (forM (chunks.map Statement.source) load).run (Assembly.empty base) = .ok () assembly ∧
      emit.run assembly = .ok program emitted ∧
      program.toList = (Statement.instructions base chunks.flatten).flatMap Instruction.toBytes := by
  have hjoined := joined_map_source chunks
  have hread : ∀ source ∈ chunks.map Statement.source, (Chunk.ofSource source).failure = none := by
    rw [List.forall_mem_map]
    intro chunk hchunk
    exact (Chunk.ofSource_of_rendering (Statement.rendering_source chunk)).2
  have hsize : Image.size (Chunk.joined (chunks.map Statement.source)) = Statement.totalSize chunks.flatten := by
    rw [hjoined, Statement.size_flatMap_items]
  rw [← Statement.definitions_flatMap_items, ← hjoined] at hnodup hdefined
  rw [← Statement.references_flatMap_items, ← hjoined] at hdefined
  rw [← hsize] at hfits
  obtain ⟨assembly, program, emitted, hloads, hemit, hprogram⟩ :=
    exists_program base (by omega) hread hnodup hdefined (by omega) hfits
  rw [hjoined, Statement.bytes_items] at hprogram
  exact ⟨assembly, program, emitted, hloads, hemit, hprogram⟩

/-- The source text of statements, in chunks that end between statements, makes a program for the address that a
machine without a program has its instructions at.  A machine runs it as the statements are executed: it holds what
they leave behind and reports the fault that ends them, or performs all of them and halts. -/
theorem run_of_source {chunks : List (List Statement)} {config : Config} {layout : Layout}
    (hnodup : (chunks.flatten.filterMap Statement.definition?).Nodup)
    (hdefined : ∀ name ∈ chunks.flatten.filterMap Statement.reference?,
      name ∈ chunks.flatten.filterMap Statement.definition?)
    (hcount : config.registerCount.toNat ≤ maxRegisterCount)
    (hlayout : Layout.ofConfig (Statement.totalSize chunks.flatten) config = .ok layout) :
    let account := Statement.account layout config.registerCount.toNat chunks.flatten
    ∃ bare assembly program emitted machine last,
      Machine.build #[] config = .ok bare ∧
      (forM (chunks.map Statement.source) load).run (Assembly.empty bare.instructionBase) = .ok () assembly ∧
      emit.run assembly = .ok program emitted ∧
      Machine.build program config = .ok machine ∧
      runToHalt.run machine = ended account.fault () last ∧ last.Holds account.store ∧
      (account.fault = none → last.Holds
        ((Statement.instructions bare.instructionBase chunks.flatten).foldl Instruction.perform
          (.initial config.registerCount.toNat))) := by
  intro account
  obtain ⟨hlow, hhigh⟩ := (Layout.fits_of_ofConfig hlayout).program_bounds
  -- Without a program the machine has its instructions at the same address.
  obtain ⟨bareLayout, hbareLayout, hstart⟩ := Layout.ofConfig_of_le (Nat.zero_le _) hlayout
  obtain ⟨bare, hbare, hbase⟩ : ∃ bare, Machine.build #[] config = .ok bare ∧
      bare.instructionBase = layout.instructionsStart :=
    ⟨_, Machine.build_eq_ok_iff.2 ⟨hcount, bareLayout, hbareLayout, rfl⟩, hstart⟩
  obtain ⟨assembly, program, emitted, hloads, hemit, hprogram⟩ :=
    exists_program_of_source layout.instructionsStart hnodup hdefined (by omega) (by omega)
  have hlength : program.size = Statement.totalSize chunks.flatten := by
    rw [← Array.length_toList, hprogram, ← Statement.bytes_items, Image.bytes, Image.length_flatMap_image,
      Statement.size_flatMap_items]
  obtain ⟨machine, last, hbuild, hrun, hlast⟩ := run_of_instructions hcount (by rwa [hlength]) hprogram
  rw [← hbase] at hloads
  refine ⟨bare, assembly, program, emitted, machine, last, hbare, hloads, hemit, hbuild, hrun, hlast, ?_⟩
  intro hfault
  rw [hbase, ← Account.store_of_fault_eq_none (Nat.zero_le _) hfault]
  exact hlast

/-- The second chunk defines the label, and its last statement names a register that does not exist. -/
theorem run_of_source_two_chunks : ∃ bare assembly program emitted machine last,
    Machine.build #[] { registerCount := 2, stackSize := 3 } = .ok bare ∧
      (forM ["setreg 1 int end\npush 1\n", "label end\nxor 2 1\n"] load).run
        (Assembly.empty bare.instructionBase) = .ok () assembly ∧
      emit.run assembly = .ok program emitted ∧
      Machine.build program { registerCount := 2, stackSize := 3 } = .ok machine ∧
      runToHalt.run machine = .error (.registerOutOfRange .xor 1032 2 2) last ∧
      last.Holds ⟨#[0, 1032], [8, 4, 0, 0]⟩ := by
  have hlayout : Layout.ofConfig
      (Statement.totalSize (List.flatten [[.setReg 1 (.address ⟨"end", by decide⟩), .push 1],
        [.label ⟨"end", by decide⟩, .xor 2 1]])) { registerCount := 2, stackSize := 3 } =
          .ok ⟨1024, 1035, 1135, 2147482623, 2147482620⟩ := Layout.ofConfig_eq_ok_iff.2 (by decide)
  obtain ⟨bare, assembly, program, emitted, machine, last, hbare, hloads, hemit, hbuild, hrun, hlast, -⟩ :=
    run_of_source (by decide) (by decide) (by decide) hlayout
  exact ⟨bare, assembly, program, emitted, machine, last, hbare, hloads, hemit, hbuild, hrun, hlast⟩

end RegisterMachine
