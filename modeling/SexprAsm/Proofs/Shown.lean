import SexprAsm.Proofs.Assembly.Shown
import SexprAsm.Proofs.Generation.Literals
import SexprAsm.Proofs.Program

/-!
# What the text of a program shows

Slots are only written under their names, so a program that compiles has no two slots of one name.
Programs with legible names and one text therefore show the same (`Program.compile_shown`). That
names are legible has to be asked for: a name that goes on to another line reads like two slots.
-/

namespace SexprAsm

open Relation

/-- Slots are only written under their names, so no name comes twice. -/
theorem Heap.nodup_keys_define {c : Catalog} {heap heap' : Heap} {name : String}
    {type : Option TypeId} {attributes : Attributes} {value : Option Value}
    (h : heap.define c name type attributes value = .ok heap') (hnodup : heap.slots.keys.Nodup) :
    heap'.slots.keys.Nodup := by
  obtain ⟨-, rfl⟩ := Heap.define_ok h
  exact OrderedMap.nodup_keys_put hnodup

theorem Assembly.nodup_keys_of_changes {c : Catalog} {a a' : Assembly}
    (h : ReflTransGen (Assembly.Change c) a a') (hnodup : a.heap.slots.keys.Nodup) :
    a'.heap.slots.keys.Nodup := by
  induction h with
  | refl => exact hnodup
  | tail _ hchange ih =>
    cases hchange with
    | code heap => rwa [heap]
    | slot fresh define => exact Heap.nodup_keys_define define ih
    | literal unknown fresh lead define => exact Heap.nodup_keys_define define ih

theorem Resolution.nodup_keys_of_proceeds {cfg : Setting} {w w' : Workspace}
    (h : Resolution.Proceeds cfg w w') (hnodup : w.assembly.heap.slots.keys.Nodup) :
    w'.assembly.heap.slots.keys.Nodup := by
  induction h with
  | refl => exact hnodup
  | tail _ hchange ih =>
    cases hchange with
    | consult hconsult =>
      cases hconsult with
      | ask fresh define => exact Heap.nodup_keys_define define ih
      | record => exact ih
    | declare constant define => exact Heap.nodup_keys_define define ih
    | note => exact ih

namespace Program

variable {cfg cfg' : Setting} {source source' : String} {p p' : Program} {t t' : Tree}
  {before after before' after' : Workspace}

theorem Stages.nodup_keys (h : Stages cfg source p t before after) :
    after.assembly.heap.slots.keys.Nodup := by
  have hbefore := Resolution.nodup_keys_of_proceeds (resolved_proceeds h.resolved) List.nodup_nil
  have hgenerate := Generation.generate_changes cfg t before
  rw [h.generated.endState_eq] at hgenerate
  exact Assembly.nodup_keys_of_changes hgenerate.assembly hbefore

/-- Programs that are compiled against one catalogue to one text, and whose names imitate nothing of
what stands around them, have slots, entry points, instructions and addresses of jumps that the
text shows in the same way. -/
theorem compile_shown (hcatalog : cfg'.catalog = cfg.catalog)
    (h : Stages cfg source p t before after) (h' : Stages cfg' source' p' t' before' after')
    (htext : p'.assembly = p.assembly) (hlegible : after.assembly.Legible cfg.catalog.types)
    (hlegible' : after'.assembly.Legible cfg.catalog.types) :
    after'.assembly.shownSlots cfg.catalog.types = after.assembly.shownSlots cfg.catalog.types ∧
      after'.assembly.shownLines = after.assembly.shownLines := by
  have hshown := h'.text
  rw [hcatalog, htext] at hshown
  exact Assembly.text_inj hshown h.text hlegible' hlegible h'.nodup_keys

/-- What is checked of the workspace that a source leads to holds of its last stage. -/
theorem Stages.of_all (h : Stages cfg source p t before after) (check : Workspace → Bool)
    (hall : (Tree.read source).toOption.all
      (fun t => (Program.generated cfg t).toOption.all check) = true) : check after = true := by
  have hgenerated : Program.generated cfg t = .ok after :=
    generated_eq_ok_iff.mpr ⟨before, h.resolved, h.generated⟩
  rw [h.read, Except.toOption, Option.all_some, hgenerated, Except.toOption,
    Option.all_some] at hall
  exact hall

/-- An assignment with types checked, and the same in a list without a tag and with nothing checked:
the texts are equal, and so is what they show of slots and code. -/
theorem compile_shown_wrapped : ∃ p p' t t' before before' after after',
    Stages ⟨Catalog.empty, true⟩ "=(x,1)" p t before after ∧
      Stages ⟨Catalog.empty, false⟩ "(=(x,1))" p' t' before' after' ∧
      p'.assembly = p.assembly ∧
      after'.assembly.shownSlots Catalog.empty.types =
        after.assembly.shownSlots Catalog.empty.types ∧
      after'.assembly.shownLines = after.assembly.shownLines := by
  have hrun : (compile ⟨Catalog.empty, true⟩ "=(x,1)").toOption.map (fun _ => ()) = some () := by
    decide +kernel
  have htext : (compile ⟨Catalog.empty, false⟩ "(=(x,1))").toOption.map (·.assembly) =
      (compile ⟨Catalog.empty, true⟩ "=(x,1)").toOption.map (·.assembly) := by
    decide +kernel
  obtain ⟨p, hp, -⟩ := exists_ok_of_map hrun
  rw [hp, Except.toOption, Option.map_some] at htext
  obtain ⟨p', hp', hsame⟩ := exists_ok_of_map htext
  obtain ⟨t, before, after, h⟩ := compile_stages hp
  obtain ⟨t', before', after', h'⟩ := compile_stages hp'
  have hlegible := h.of_all (fun w => decide (w.assembly.Legible Catalog.empty.types))
    (by decide +kernel)
  have hlegible' := h'.of_all (fun w => decide (w.assembly.Legible Catalog.empty.types))
    (by decide +kernel)
  have hcatalog : (⟨Catalog.empty, false⟩ : Setting).catalog =
      (⟨Catalog.empty, true⟩ : Setting).catalog := rfl
  have hshown := compile_shown hcatalog h h' hsame
    (of_decide_eq_true hlegible) (of_decide_eq_true hlegible')
  exact ⟨p, p', t, t', before, before', after, after', h, h', hsame, hshown⟩

/-- A name that goes on to another line reads like two slots. -/
example :
    (compile ⟨Catalog.empty, true⟩ "(var(\"x: %SystemString, null\\ny\",\"b\"))").toOption.map
        (·.assembly) =
      (compile ⟨Catalog.empty, true⟩ "(var(x,\"a\"),var(y,\"b\"))").toOption.map
        (·.assembly) := by
  decide +kernel

end Program

end SexprAsm
