import RegisterMachine.Proofs.Assembly.Program
import RegisterMachine.Proofs.Machine.Refinement

/-!
# Addresses

Labels stand for addresses of the machine that runs the program.  The assembly adds up a base and the sizes of items,
the layout adds up the offsets of a configuration, and memory counts from the start of the program; that they mean the
same byte is what the result here says (`read_at_label`).  The base may be that of a machine without a program, since
the length of a program does not move its start.
-/

namespace RegisterMachine

open Assembling

variable {program : Array UInt8} {config : Config} {machine : Machine}

namespace Machine

theorem regionOf_of_build (h : Machine.build program config = .ok machine) (address : Int) :
    machine.memory.layout.regionOf address = .instructions ↔
      machine.instructionBase ≤ address ∧ address < machine.instructionBase + program.size := by
  rw [Layout.regionOf_eq_instructions_iff, (matches_of_build h).fits.instructionsEnd_eq]
  rfl

/-- The program stands at the base, byte for byte. -/
theorem read_of_build (h : Machine.build program config = .ok machine) (index : Nat) (hindex : index < program.size) :
    machine.memory.read (machine.instructionBase + index) = .ok program[index] := by
  have hmatch := matches_of_build h
  have hend := hmatch.fits.instructionsEnd_eq
  have hstart : machine.memory.layout.instructionsStart = machine.instructionBase := rfl
  obtain ⟨byte, hbyte, hread⟩ := Memory.read_of_program hmatch.memory_fits (machine.instructionBase + index)
    (by omega) (by omega)
  have hplace : (machine.instructionBase + index - machine.memory.layout.instructionsStart).toNat = index := by omega
  rw [hmatch.program_eq, hplace, Array.getElem?_eq_getElem hindex] at hbyte
  cases hbyte
  exact hread

/-- Without its program a machine has its instructions at the same address. -/
theorem instructionBase_of_build {bare : Machine} {layout : Layout} {length : Nat}
    (h : Machine.build #[] config = .ok bare) (hlayout : Layout.ofConfig length config = .ok layout) :
    bare.instructionBase = layout.instructionsStart := by
  obtain ⟨-, bareLayout, hbareLayout, rfl⟩ := build_eq_ok_iff.1 h
  obtain ⟨other, hother, hstart⟩ := Layout.ofConfig_of_le (Nat.zero_le length) hlayout
  cases hbareLayout.symm.trans hother
  exact hstart

end Machine

/-- Chunks that were loaded for the base of a machine without a program, and define all labels that they refer to, make
a program if a layout has room for it; the machine built for it has that layout and the same base.  Every label stands
for the address of the byte behind it: where a chunk refers to the label, the program holds the base plus the offset of
the label as a word, and from this address on the machine reads the bytes that the program has from the offset on.  A
label at the very end stands for the end of the program, which is the first address behind the bytes that can be read
from it. -/
theorem read_at_label {sources : List String} {bare : Machine} {assembly : Assembly} {layout : Layout}
    (hbare : Machine.build #[] config = .ok bare)
    (hloads : (forM sources load).run (Assembly.empty bare.instructionBase) = .ok () assembly)
    (hdefined : ∀ name ∈ Image.references (Chunk.joined sources), assembly.label? name ≠ none)
    (hlayout : Layout.ofConfig assembly.code.size config = .ok layout) :
    ∃ program emitted machine, emit.run assembly = .ok program emitted ∧
      Machine.build program config = .ok machine ∧
      program.size = assembly.code.size ∧
      machine.memory.layout = layout ∧
      machine.instructionBase = bare.instructionBase ∧
      (∀ name offset, assembly.label? name = some offset →
        offset ≤ program.size ∧
        (∀ index (hindex : offset + index < program.size),
          layout.regionOf (machine.instructionBase + offset + index) = .instructions ∧
          machine.memory.read (machine.instructionBase + offset + index) = .ok program[offset + index]) ∧
        (∀ front back, Chunk.joined sources = front ++ .reference name :: back →
          ∃ word : Word, word.toInt = machine.instructionBase + offset ∧
            (program.toList.drop (Image.size front)).take 4 = word.toBytes) ∧
        (offset = program.size → machine.instructionBase + offset = layout.instructionsEnd)) ∧
      ∀ address, (layout.regionOf address = .instructions ∧ ∃ byte, machine.memory.read address = .ok byte) ↔
        machine.instructionBase ≤ address ∧ address < layout.instructionsEnd := by
  have hstart := Machine.instructionBase_of_build hbare hlayout
  obtain ⟨hlow, hhigh⟩ := (Layout.fits_of_ofConfig hlayout).program_bounds
  have hlabels := label?_of_loads hloads
  have hcode := size_code_of_loads hloads
  have hdefinitions (name : String) (hname : name ∈ Image.references (Chunk.joined sources)) :
      name ∈ Image.definitions (Chunk.joined sources) := by
    obtain ⟨offset, hoffset⟩ := Option.ne_none_iff_exists'.1 (hlabels name ▸ hdefined name hname)
    exact Image.mem_definitions_of_offset?_eq_some hoffset
  -- No address is above the end of the program, which lies far below the largest address.
  obtain ⟨program, emitted, hemit, hprogram⟩ :=
    exists_program_of_loads (by omega) hloads hdefinitions (by omega) (by omega)
  have hsize : program.size = assembly.code.size := by
    rw [← Array.length_toList, hprogram, Image.bytes, Image.length_flatMap_image, hcode]
  obtain ⟨machine, hbuild, hmachine⟩ : ∃ machine, Machine.build program config = .ok machine ∧
      machine.memory.layout = layout :=
    ⟨_, Machine.build_eq_ok_iff.2 ⟨(Machine.build_eq_ok_iff.1 hbare).1, layout, by rwa [hsize], rfl⟩, rfl⟩
  have hmachineBase : machine.instructionBase = layout.instructionsStart := by rw [Machine.instructionBase, hmachine]
  have hend : layout.instructionsEnd = machine.instructionBase + program.size := by
    rw [hmachineBase, hsize]
    exact (Layout.fits_of_ofConfig hlayout).instructionsEnd_eq
  have hregion := Machine.regionOf_of_build hbuild
  have hread := Machine.read_of_build hbuild
  rw [hmachine] at hregion
  refine ⟨program, emitted, machine, hemit, hbuild, hsize, hmachine, hmachineBase.trans hstart.symm, ?_, ?_⟩
  · intro name offset hoffset
    rw [hlabels] at hoffset
    have hle := Image.offset?_le_size hoffset
    refine ⟨by omega, ?_, ?_, fun hlast => by omega⟩
    · intro index hindex
      rw [hregion, Int.add_assoc, ← Int.natCast_add]
      exact ⟨by omega, hread (offset + index) hindex⟩
    · intro front back hsplit
      have haddress : Image.address bare.instructionBase (Chunk.joined sources) name = machine.instructionBase + offset := by
        rw [Image.address, hoffset, hstart, hmachineBase, Option.getD_some]
      refine ⟨.ofInt (machine.instructionBase + offset), Int32.toInt_ofInt_of_le (by omega) (by omega), ?_⟩
      rw [hprogram, Image.bytes, ← haddress]
      generalize Image.address bare.instructionBase (Chunk.joined sources) = address
      rw [hsplit]
      exact Image.take_drop_flatMap_image address front back (.reference name)
  · intro address
    rw [hregion, hend]
    constructor
    · exact And.left
    · intro hinside
      obtain ⟨index, rfl⟩ : ∃ index : Nat, address = machine.instructionBase + index :=
        ⟨(address - machine.instructionBase).toNat, by omega⟩
      exact ⟨hinside, _, hread index (by omega)⟩

/-- The first chunk refers to the label at the very end, and the second one to a label of the first. -/
theorem read_at_label_two_chunks : ∃ bare assembly program emitted machine,
    Machine.build #[] { instructionOffset := 6 } = .ok bare ∧
    (forM ["int end label start noop", "setreg 1 int start label end"] load).run
      (Assembly.empty bare.instructionBase) = .ok () assembly ∧
    Layout.ofConfig assembly.code.size { instructionOffset := 6 } = .ok ⟨1030, 1041, 1141, 2147482623, 2146434047⟩ ∧
    emit.run assembly = .ok program emitted ∧ Machine.build program { instructionOffset := 6 } = .ok machine ∧
    program.toList.take 4 = [17, 4, 0, 0] ∧
    machine.instructionBase + 11 = machine.memory.layout.instructionsEnd ∧
    ∀ index (hindex : 4 + index < program.size), machine.memory.read (1034 + index) = .ok program[4 + index] := by
  obtain ⟨bare, hbare⟩ : ∃ bare, Machine.build #[] { instructionOffset := 6 } = .ok bare := ⟨_, rfl⟩
  have hbase : bare.instructionBase = 1030 := by
    cases hbare
    rfl
  have hjoined : Chunk.joined ["int end label start noop", "setreg 1 int start label end"] =
      [.reference "end", .label "start", .opcode .noop, .opcode .setReg, .byte 1, .reference "start", .label "end"] := by
    decide +kernel
  have hread : ∀ source ∈ ["int end label start noop", "setreg 1 int start label end"],
      (Chunk.ofSource source).failure = none := by decide +kernel
  obtain ⟨assembly, hloads⟩ := run_forM_load_of_holds (Assembly.holds_empty bare.instructionBase) rfl hread
    (by rw [hjoined]; decide) (by rw [hjoined]; decide)
  have hlabels := label?_of_loads hloads
  have hcode := size_code_of_loads hloads
  rw [hjoined] at hlabels hcode
  have hcode : assembly.code.size = 11 := hcode
  have hlayout : Layout.ofConfig assembly.code.size { instructionOffset := 6 } =
      .ok ⟨1030, 1041, 1141, 2147482623, 2146434047⟩ := by
    rw [hcode]
    rfl
  have hdefined : ∀ name ∈ Image.references
      (Chunk.joined ["int end label start noop", "setreg 1 int start label end"]), assembly.label? name ≠ none := by
    simp only [hjoined, hlabels]
    decide
  obtain ⟨program, emitted, machine, hemit, hbuild, hsize, hmachine, hmachineBase, hall, -⟩ :=
    read_at_label hbare hloads hdefined hlayout
  rw [hbase] at hmachineBase
  rw [hcode] at hsize
  obtain ⟨-, -, hreferences, hlast⟩ := hall "end" 11 ((hlabels "end").trans (by decide))
  obtain ⟨-, hbytes, -⟩ := hall "start" 4 ((hlabels "start").trans (by decide))
  obtain ⟨word, hword, htake⟩ := hreferences [] _ hjoined
  rw [hmachineBase] at hword hbytes
  have hvalue : word = 1041 := Int32.toInt_inj.1 hword
  refine ⟨bare, assembly, program, emitted, machine, hbare, hloads, hlayout, hemit, hbuild, ?_, ?_, ?_⟩
  · rw [hvalue] at htake
    exact htake.trans (by decide)
  · rw [hmachine]
    exact hlast hsize.symm
  · intro index hindex
    exact (hbytes index hindex).2

end RegisterMachine
