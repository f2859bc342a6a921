import ClassScript.CommandLine.Execution
import ClassScript.Proofs.Syntax.Undump

/-!
# Printed syntax trees

The syntax tree that is printed for a file loses nothing of the program in it.  One reader finds
the program again in what is printed, for every file without mistakes (`dump_reads_back`).
-/

namespace ClassScript.CommandLine

theorem dumpReport_of_clean {source : String} (h : (Reading.ofSource source).diagnostics = []) :
    dumpReport source =
      ⟨(Reading.ofSource source).program.dump.text ++ "\n", "", none, .exit 0⟩ := by
  unfold dumpReport
  simp only [h, List.isEmpty_nil, if_true]

theorem dumpReport_output_inj {source source' : String}
    (h : (Reading.ofSource source).diagnostics = [])
    (h' : (Reading.ofSource source').diagnostics = []) :
    (dumpReport source).output = (dumpReport source').output ↔
      (Reading.ofSource source).program = (Reading.ofSource source').program := by
  rw [dumpReport_of_clean h, dumpReport_of_clean h', ← Program.dump_text_inj]
  exact String.append_left_inj "\n"

/-- The text printed for a file without mistakes is read as the dump of its program, with every
token in it, and as the program.  So the texts of two such files agree just if the programs do,
and the same holds of all programs whether they are found in a file or not. -/
theorem dump_reads_back :
    (∀ p : Program Unit, Json.ofText (p.dump.text ++ "\n") = some p.dump ∧
      Program.ofText (p.dump.text ++ "\n") = some p) ∧
    (∀ p q : Program Unit, p.dump.text = q.dump.text ↔ p = q) ∧
    (∀ (world : World) (options : Options) (path text : String), options.action = .dump path →
      world.entry? (Text.simplifyPath path) = some (.file text) →
      (Reading.ofSource (Text.normalizeNewlines text)).diagnostics = [] →
        ∃ output, execute world options = ⟨output, "", none, .exit 0⟩ ∧
          Program.ofText output = some (Reading.ofSource (Text.normalizeNewlines text)).program) ∧
    ∀ source source' : String, (Reading.ofSource source).diagnostics = [] →
      (Reading.ofSource source').diagnostics = [] →
        ((dumpReport source).output = (dumpReport source').output ↔
          (Reading.ofSource source).program = (Reading.ofSource source').program) := by
  refine ⟨fun p => ⟨(Json.ofText_text p.dump).2, (Program.ofText_dump p).2⟩,
    fun _ _ => Program.dump_text_inj, fun world options path text haction hfile hclean => ?_,
    fun _ _ => dumpReport_output_inj⟩
  refine ⟨_, ?_, (Program.ofText_dump _).2⟩
  simp only [execute, haction, withFile, hfile, dumpReport_of_clean hclean]

/-- A file with a missing part, an empty list, and a string of a backslash, a tab and a letter
that is not ASCII; and two texts that differ in how a number is written. -/
theorem dump_reads_back_file :
    let text := "var x;\r\nprint \"\\\té\" == 0.1;\nf();\n"
    let world : World := ⟨fun _ => some (.file text), "", fun _ => 0⟩
    let options : Options := ⟨0, some "a.ls", none⟩
    (options.action = .dump "a.ls" ∧
      world.entry? (Text.simplifyPath "a.ls") = some (.file text) ∧
      (Reading.ofSource (Text.normalizeNewlines text)).diagnostics = [] ∧
        ∃ output, execute world options = ⟨output, "", none, .exit 0⟩ ∧
          Program.ofText output = some (Reading.ofSource (Text.normalizeNewlines text)).program) ∧
    (Reading.ofSource "print 1;").diagnostics = [] ∧
      (Reading.ofSource "print 1.0;").diagnostics = [] ∧
        ((dumpReport "print 1;").output = (dumpReport "print 1.0;").output ↔
          (Reading.ofSource "print 1;").program = (Reading.ofSource "print 1.0;").program) := by
  intro text world options
  have haction : options.action = .dump "a.ls" := by decide
  have hclean : (Reading.ofSource (Text.normalizeNewlines text)).diagnostics = [] := by
    decide +kernel
  have hone : (Reading.ofSource "print 1;").diagnostics = [] := by decide +kernel
  have hone' : (Reading.ofSource "print 1.0;").diagnostics = [] := by decide +kernel
  exact ⟨⟨haction, rfl, hclean,
      dump_reads_back.2.2.1 world options "a.ls" text haction rfl hclean⟩,
    hone, hone', dump_reads_back.2.2.2 _ _ hone hone'⟩

end ClassScript.CommandLine
