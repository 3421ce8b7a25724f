import SexprAsm.Proofs.Assembly.Groups
import SexprAsm.Proofs.Outcome

/-!
# Rendering an assembly

Rendering fails on nothing but an address: an assembly has a text just if each of its jumps has an
address (`Assembly.exists_text_iff_addresses`). So whether it has one is told by its code alone.
-/

namespace SexprAsm

namespace Assembly

variable {types : TypeTable} {a : Assembly}

theorem exists_renderInstruction_iff {offset : Nat} {i : Instruction} :
    (∃ text, a.renderInstruction offset i = .ok text) ↔
      ∀ target, i.target? = some target → ∃ address, a.addressOf offset target = .ok address := by
  have hjump : ∀ {lead : String} {target : JumpTarget}, i.target? = some target →
      ((∃ text, (do return lead ++ hex8 (← a.addressOf offset target) :
          Except BuildError String) = .ok text) ↔
        ∀ target, i.target? = some target →
          ∃ address, a.addressOf offset target = .ok address) := by
    intro lead target htarget
    refine exists_map_eq_ok_iff.trans ⟨fun h other hother => ?_, fun h => h target htarget⟩
    obtain rfl := Option.some.inj (htarget.symm.trans hother)
    exact h
  cases i with
  | jump target => exact hjump rfl
  | jumpIfFalse target => exact hjump rfl
  | _ => exact iff_of_true ⟨_, rfl⟩ (by rintro _ ⟨⟩)

/-- The text of an assembly has that of its instructions, line by line. -/
theorem text_stages {text : String} (h : a.text types = .ok text) :
    ∃ code, List.Forall₂ (fun line lines => a.codeLines line = .ok lines) a.lines.toList code ∧
      text = String.join (([".data_start"] ++ dataLines types a ++ [".data_end", ".code_start"] ++
        code.flatten ++ [".code_end"]).map (· ++ "\n")) := by
  obtain ⟨code, hcode, htext⟩ := Except.bind_eq_ok.mp h
  exact ⟨code, mapM_eq_ok_iff.mp hcode, (Except.ok.inj htext).symm⟩

/-- An assembly has a text if all its jumps have addresses. -/
theorem exists_text_iff_addresses : (∃ text, a.text types = .ok text) ↔
    ∀ line ∈ a.lines.toList, ∀ target, line.instruction.target? = some target →
      ∃ address, a.addressOf line.offset target = .ok address := by
  refine exists_map_eq_ok_iff.trans (exists_mapM_eq_ok_iff.trans ?_)
  exact forall₂_congr fun line _ => exists_map_eq_ok_iff.trans exists_renderInstruction_iff

end Assembly

end SexprAsm
