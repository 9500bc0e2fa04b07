import RegisterMachine.Proofs.Machine.Defect
import RegisterMachine.Proofs.Machine.Refinement

/-!
# Halting

How a run ends is decided by the bytes of the program, the number of registers and the size of the stack.  A run stops
at the first defect of a scan of the program, and halts cleanly if there is none (`Machine.run_stops_at_defect`).
What registers hold and what words the program loads is only seen in the value that a failing push reports.
-/

namespace RegisterMachine

open Execution

/-- A scan of the listing from its start stops at the given instruction or, free of defects so far, at the ending. -/
structure Listing.StopsAt (count room : Nat) (listing : Listing) (index : Nat) : Prop where
  index_le : index ≤ listing.instructions.length
  before : ∀ earlier < index, listing.defect? count room earlier = none
  ne_none : index < listing.instructions.length → listing.defect? count room index ≠ none

namespace Listing.StopsAt

variable {count room index other : Nat} {listing : Listing}

/-- Where the ending is reached and is a clean one, there is no defect at all. -/
theorem forall_defect?_eq_none (h : listing.StopsAt count room index)
    (hdefect : listing.defect? count room index = none) (place : Nat) : listing.defect? count room place = none := by
  have hindex : index = listing.instructions.length :=
    Nat.le_antisymm h.index_le (Nat.le_of_not_lt fun hlt => h.ne_none hlt hdefect)
  by_cases hplace : place < index
  · exact h.before place hplace
  · rw [defect?, List.getElem?_eq_none (by omega)] at hdefect ⊢
    exact hdefect

private theorem le_of_stopsAt (h : listing.StopsAt count room index) (hother : listing.StopsAt count room other) :
    index ≤ other := by
  refine Nat.le_of_not_lt fun hlt => ?_
  exact hother.ne_none (Nat.lt_of_lt_of_le hlt h.index_le) (h.before other hlt)

/-- A scan stops at one place. -/
theorem unique (h : listing.StopsAt count room index) (hother : listing.StopsAt count room other) : index = other :=
  Nat.le_antisymm (le_of_stopsAt h hother) (le_of_stopsAt hother h)

/-- The words that are loaded do not matter to the scan. -/
theorem outline (h : listing.StopsAt count room index) : listing.outline.StopsAt count room index where
  index_le := by
    rw [Listing.outline, List.length_map]
    exact h.index_le
  before := by
    intro earlier hlt
    rw [defect?_outline]
    exact h.before earlier hlt
  ne_none := by
    rw [defect?_outline, Listing.outline, List.length_map]
    exact h.ne_none

end Listing.StopsAt

/-- The fault but for the value that a failing push reports. -/
def Fault.withoutValue : Fault → Fault
  | stackWrite register _ cause => stackWrite register 0 cause
  | fault => fault

/-- What registers hold is only seen in a value reported. -/
theorem Defect.withoutValue_fault (layout : Layout) (address : Int) {one two : Array Word} (h : one.size = two.size)
    (defect : Defect) :
    (defect.fault layout address one).withoutValue = (defect.fault layout address two).withoutValue := by
  cases defect with
  | missing op register => simp only [fault, Fault.withoutValue, h]
  | _ => rfl

namespace Machine

/-- The fault that a run ends in, if it does not halt cleanly. -/
def runFault? (machine : Machine) : Option Fault :=
  match runToHalt.run machine with
  | .ok _ _ => none
  | .error fault _ => some fault

variable {program : Array UInt8} {layout : Layout} {machine : Machine} {registers : Array Word}

/-- A machine that has everything to fetch and nothing pushed runs to where the scan of its program stops. -/
theorem Matches.exists_stopsAt (h : machine.Matches program layout program.toList ⟨registers, []⟩) :
    let listing := Listing.ofBytes program.toList
    ∃ index last, listing.StopsAt registers.size layout.capacity index ∧
      runToHalt.run machine = ended ((listing.defect? registers.size layout.capacity index).map
        (Defect.fault layout (layout.instructionsStart + listing.offset index)
          ((listing.instructions.take index).foldl (fun registers instruction => instruction.update registers)
            registers))) () last ∧
      last.instructionPointer = layout.instructionsStart + listing.reach program.size index ∧
      ∀ steps, (∃ next, machine.stepMany? steps = some next) ↔ steps ≤ index := by
  intro listing
  have hend := h.fits.instructionsEnd_eq
  have hsize : program.toList.length = program.size := Array.length_toList
  have hstart : layout.instructionsEnd - program.toList.length = layout.instructionsStart := by omega
  have hsteps := stepMany?_of_matches h
  obtain ⟨last, hlast, hrun⟩ := exists_run_runToHalt_of_matches h
  rw [hstart] at hsteps hlast hrun
  obtain ⟨hle, hbefore, hstop, hne, -⟩ :=
    Listing.execute_stops h.pushed_le layout.instructionsStart listing
  rw [hstop] at hne hrun
  simp only [listing.stop?_eq, Option.map_eq_none_iff, Ne] at hbefore hne hrun
  refine ⟨_, last, ⟨hle, hbefore, hne⟩, hrun, ?_, fun steps => ?_⟩
  · have hreach := Listing.reach_ofBytes_le program.toList
    rw [hsize] at hlast hreach
    exact hlast.instructionPointer_of_drop (hreach _)
  · have hcount := hsteps steps
    split at hcount
    · rename_i hcompleted
      obtain ⟨next, -, hnext, -⟩ := hcount
      exact iff_of_true ⟨next, hnext⟩ hcompleted
    · rename_i hcompleted
      rw [hcount]
      exact iff_of_false nofun hcompleted

theorem runFault?_of_run {fault? : Option Fault} {last : Machine} (h : runToHalt.run machine = ended fault? () last) :
    machine.runFault? = fault? := by
  rw [runFault?, h]
  cases fault? <;> rfl

theorem after_runToHalt_of_run {fault? : Option Fault} {last : Machine}
    (h : runToHalt.run machine = ended fault? () last) : runToHalt.after machine = last := by
  rw [after, h]
  cases fault? <;> rfl

/-- Machines in one layout whose programs have the same size, and differ in the words that they load at most, run
alike whatever their registers hold. -/
theorem Matches.run_alike {other : Array UInt8} {twin : Machine} {values : Array Word}
    (h : machine.Matches program layout program.toList ⟨registers, []⟩)
    (htwin : twin.Matches other layout other.toList ⟨values, []⟩) (hsize : other.size = program.size)
    (houtline : (Listing.ofBytes other.toList).outline = (Listing.ofBytes program.toList).outline)
    (hvalues : values.size = registers.size) :
    twin.runFault?.map Fault.withoutValue = machine.runFault?.map Fault.withoutValue ∧
      (runToHalt.after twin).instructionPointer = (runToHalt.after machine).instructionPointer ∧
      ∀ steps, (∃ next, twin.stepMany? steps = some next) ↔ ∃ next, machine.stepMany? steps = some next := by
  obtain ⟨index, last, hstops, hrun, hpointer, hsteps⟩ := h.exists_stopsAt
  obtain ⟨index', last', hstops', hrun', hpointer', hsteps'⟩ := htwin.exists_stopsAt
  rw [hvalues] at hstops' hrun'
  have hindex : index' = index := by
    have houtlined := hstops'.outline
    rw [houtline] at houtlined
    exact houtlined.unique hstops.outline
  subst hindex
  refine ⟨?_, ?_, fun steps => ?_⟩
  · have hdefect : (Listing.ofBytes other.toList).defect? registers.size layout.capacity index' =
        (Listing.ofBytes program.toList).defect? registers.size layout.capacity index' := by
      rw [← Listing.defect?_outline, houtline, Listing.defect?_outline]
    have hoffset : (Listing.ofBytes other.toList).offset index' = (Listing.ofBytes program.toList).offset index' := by
      rw [← Listing.offset_outline, houtline, Listing.offset_outline]
    rw [runFault?_of_run hrun, runFault?_of_run hrun', hdefect, hoffset, Option.map_map, Option.map_map]
    congr 1
    funext defect
    refine Defect.withoutValue_fault layout _ ?_ defect
    rw [Instruction.size_foldl_update, Instruction.size_foldl_update, hvalues]
  · rw [after_runToHalt_of_run hrun, after_runToHalt_of_run hrun', hpointer, hpointer', hsize,
      ← Listing.reach_outline, houtline, Listing.reach_outline]
  · rw [hsteps, hsteps']

/-- A layout depends on the size of the program only. -/
private theorem layout_eq_of_build {other : Array UInt8} {config : Config} {twin : Machine}
    (h : Machine.build program config = .ok machine) (htwin : Machine.build other config = .ok twin)
    (hsize : other.size = program.size) : twin.memory.layout = machine.memory.layout := by
  obtain ⟨-, layout, hlayout, rfl⟩ := build_eq_ok_iff.1 h
  obtain ⟨-, layout', hlayout', rfl⟩ := build_eq_ok_iff.1 htwin
  rw [hsize, hlayout] at hlayout'
  cases hlayout'
  rfl

/-- How a run of a machine that was just built ends can be read off the bytes of its program.  It halts cleanly exactly
if they split into instructions, all registers named exist, and the stack has room for all pushes.  Otherwise a scan of
the program meets a first defect; the run stops there, with the fault that the defect is reported as, and the bytes of
the instruction are fetched.  Neither what registers hold nor what words the program loads has a part in which fault it
is, where it is and how many steps are executed before it; only the value reported with it depends on them. -/
theorem run_stops_at_defect {program : Array UInt8} {config : Config} {machine : Machine}
    (h : Machine.build program config = .ok machine) :
    let count := config.registerCount.toNat
    let room := config.stackSize.toNat + 1
    let layout := machine.memory.layout
    let listing := Listing.ofBytes program.toList
    ((∃ last, runToHalt.run machine = .ok () last) ↔
      ∃ instructions : List Instruction, program.toList = instructions.flatMap Instruction.toBytes ∧
        (∀ instruction ∈ instructions, ∀ register ∈ instruction.named, register.toNat < count) ∧
        4 * instructions.countP Instruction.isPush ≤ room) ∧
    ((¬ ∃ last, runToHalt.run machine = .ok () last) →
      ∃ index defect last, (∀ earlier < index, listing.defect? count room earlier = none) ∧
        listing.defect? count room index = some defect ∧
        runToHalt.run machine = .error (defect.fault layout (layout.instructionsStart + listing.offset index)
          ((listing.instructions.take index).foldl (fun registers instruction => instruction.update registers)
            (Array.replicate count 0))) last ∧
        last.instructionPointer = layout.instructionsStart + listing.reach program.size index ∧
        ∀ steps, (∃ next, machine.stepMany? steps = some next) ↔ steps ≤ index) ∧
    ∀ (other : Array UInt8) (twin : Machine) (registers values : Array Word), Machine.build other config = .ok twin →
      other.size = program.size → (Listing.ofBytes other.toList).outline = listing.outline →
      registers.size = count → values.size = count →
      let here := { machine with registers }
      let there := { twin with registers := values }
      there.runFault?.map Fault.withoutValue = here.runFault?.map Fault.withoutValue ∧
        (runToHalt.after there).instructionPointer = (runToHalt.after here).instructionPointer ∧
        ∀ steps, (∃ next, there.stepMany? steps = some next) ↔ ∃ next, here.stepMany? steps = some next := by
  intro count room layout listing
  have hmatch := matches_of_build h
  have hcapacity : layout.capacity = room := capacity_of_build h
  obtain ⟨index, last, hstops, hrun, hpointer, hsteps⟩ := hmatch.exists_stopsAt
  rw [Array.size_replicate, hcapacity] at hstops hrun
  refine ⟨?_, ?_, ?_⟩
  · rw [← Listing.forall_defect?_ofBytes_eq_none_iff]
    cases hdefect : listing.defect? count room index with
    | none =>
      rw [hdefect] at hrun
      exact iff_of_true ⟨last, hrun⟩ (hstops.forall_defect?_eq_none hdefect)
    | some defect =>
      rw [hdefect] at hrun
      rw [hrun]
      exact iff_of_false nofun fun hnone => Option.some_ne_none defect (hdefect.symm.trans (hnone index))
  · intro hfails
    cases hdefect : listing.defect? count room index with
    | none =>
      rw [hdefect] at hrun
      exact absurd ⟨last, hrun⟩ hfails
    | some defect =>
      rw [hdefect] at hrun
      exact ⟨index, defect, last, hstops.before, hdefect, hrun, hpointer, hsteps⟩
  · intro other twin registers values htwin hsize houtline hregisters hvalues
    have htwinMatch := matches_of_build htwin
    rw [layout_eq_of_build h htwin hsize] at htwinMatch
    exact (hmatch.withRegisters registers).run_alike (htwinMatch.withRegisters values) hsize houtline
      (hvalues.trans hregisters.symm)

/-- A stack of seven bytes has room for one of two pushes, with any word loaded between them and any registers at the
start. -/
theorem run_stops_at_defect_full_stack :
    ∃ machine twin last, Machine.build #[8, 0, 1, 0, 7, 0, 0, 0, 8, 0, 8, 9] { stackSize := 6 } = .ok machine ∧
      Machine.build #[8, 0, 1, 0, 9, 9, 9, 9, 8, 0, 8, 9] { stackSize := 6 } = .ok twin ∧
      runToHalt.run machine = .error (.stackWrite 0 7 (.outOfBounds 2147482616 2147482617 2147482623)) last ∧
      last.instructionPointer = 1034 ∧ (∀ steps, (∃ next, machine.stepMany? steps = some next) ↔ steps ≤ 2) ∧
      { twin with registers := #[5, 4, 3, 2, 1, 0, 0, 0] }.runFault?.map Fault.withoutValue =
        some (.stackWrite 0 0 (.outOfBounds 2147482616 2147482617 2147482623)) := by
  obtain ⟨machine, h⟩ : ∃ machine,
      Machine.build #[8, 0, 1, 0, 7, 0, 0, 0, 8, 0, 8, 9] { stackSize := 6 } = .ok machine := ⟨_, rfl⟩
  obtain ⟨twin, htwin⟩ : ∃ twin,
      Machine.build #[8, 0, 1, 0, 9, 9, 9, 9, 8, 0, 8, 9] { stackSize := 6 } = .ok twin := ⟨_, rfl⟩
  have hlayout : machine.memory.layout = ⟨1024, 1036, 1136, 2147482623, 2147482617⟩ := by
    cases h
    rfl
  have hregisters : machine.registers = Array.replicate 8 0 := by
    cases h
    rfl
  have hlisting : Listing.ofBytes [8, 0, 1, 0, 7, 0, 0, 0, 8, 0, 8, 9] =
      ⟨[.push 0, .setReg 0 7, .push 0, .push 9], .complete⟩ := by decide +kernel
  have hlisting' : Listing.ofBytes [8, 0, 1, 0, 9, 9, 9, 9, 8, 0, 8, 9] =
      ⟨[.push 0, .setReg 0 151587081, .push 0, .push 9], .complete⟩ := by decide +kernel
  obtain ⟨hclean, hstops, halike⟩ := run_stops_at_defect h
  simp only [hlisting, hlayout] at hstops
  have hfails : ¬ ∃ last, runToHalt.run machine = .ok () last := by
    rw [hclean]
    rintro ⟨instructions, hbytes, -, hroom⟩
    have hread := Listing.ofBytes_append instructions []
    rw [List.append_nil, ← hbytes, hlisting, Listing.ofBytes_nil, List.append_nil] at hread
    cases hread
    exact absurd hroom (by decide)
  obtain ⟨index, defect, last, hbefore, hdefect, hrun, hpointer, hsteps⟩ := hstops hfails
  -- The first push and the load are free of defects, and the second push is not.
  have hindex : index = 2 := by
    rcases index with _ | _ | _ | index
    · cases hdefect
    · cases hdefect
    · rfl
    · exact absurd (hbefore 2 (by omega)) (by decide)
  subst hindex
  cases hdefect
  refine ⟨machine, twin, last, h, htwin, hrun, hpointer, hsteps, ?_⟩
  obtain ⟨hfault, -⟩ := halike _ twin machine.registers #[5, 4, 3, 2, 1, 0, 0, 0] htwin rfl
    (by rw [hlisting, hlisting']; rfl) (by rw [hregisters]; rfl) rfl
  have hhere : machine.runFault? = some (.stackWrite 0 7 (.outOfBounds 2147482616 2147482617 2147482623)) := by
    rw [runFault?, hrun]
    rfl
  exact hfault.trans (congrArg (Option.map Fault.withoutValue) hhere)

end Machine

end RegisterMachine
