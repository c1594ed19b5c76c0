import Mathlib
import Freshen.Command.Options
import Freshen.Command.Source
import Freshen.Proofs.Rename.Binding
import Freshen.Proofs.Rename.Isolation

/-!
# The rename command on source text

Whether the command succeeds is settled by the parser: renaming does not fail, and the check of the result
finds nothing, because no name is bound twice in a renamed callable.

- `Command.verify_eq_ok`: the check accepts renamed callables.
- `Command.rename_of_parse`: what the command makes of a text that is parsed, whatever its flags are.

**Key results.** `Command.rename_eq_of_options`: the command fails only by parsing, and its options do not
change its answer.
-/

namespace Freshen

/-- The check for repeated names accepts a renamed callable. -/
theorem Callable.checkBindings_of_rename {c c' : Callable} (h : c.rename = .ok c') :
    c'.checkBindings = .ok () := by
  obtain ⟨renamed, hrename, hc⟩ := c.rename_eq
  obtain rfl : renamed = c' := Except.ok.inj (hrename.symm.trans h)
  exact checkBindings_eq_ok hc.allocates.nodup

namespace Command

/-- The check accepts a program of renamed callables. -/
theorem verify_eq_ok {cs cs' : List Callable}
    (h : List.Forall₂ (fun c c' => c.rename = .ok c') cs cs') : verify ⟨cs'⟩ = .ok () := by
  induction h with
  | nil => rfl
  | @cons c c' cs cs' hfirst _ ih =>
      change (c'.checkBindings.mapError CommandError.verify >>= fun _ => verify ⟨cs'⟩) = .ok ()
      rw [Callable.checkBindings_of_rename hfirst]
      exact ih

/-- Once its text is parsed the command succeeds, with the text of the renamed program. -/
theorem rename_of_parse {source : String} {p : Program} (h : Program.parse source = .ok p) :
    ∃ p', p.rename = .ok p' ∧ p.renameApart = .ok p' ∧
      ∀ (path : String) (checked apart : Bool), rename path source checked apart = .ok p'.format := by
  obtain ⟨p', hrename, hapart, hcallables⟩ := p.exists_rename
  refine ⟨p', hrename, hapart, fun path checked apart => ?_⟩
  have hload : load path source = .ok p := by rw [load, h]; rfl
  have hprogram : renameProgram apart p = .ok p' := by
    cases apart with
    | true => rw [renameProgram, if_pos rfl, hapart]; rfl
    | false => rw [renameProgram, if_neg Bool.false_ne_true, hrename]; rfl
  rw [rename, hload]
  change (renameProgram apart p >>= _) = _
  rw [hprogram]
  cases checked with
  | true =>
      change (verify p' >>= _) = _
      rw [verify_eq_ok hcallables]
      rfl
  | false => rfl

/-- **The rename command fails only by parsing, and its options never change its answer.**  For each source
text there is one result, an error of the parser or the text of the renamed program.  Under every path and
all options the command gives this result; it is an error if and only if the parser gives this error; and the
text is that of the program renamed in either way. -/
theorem rename_eq_of_options (source : String) :
    ∃ result : Except ParseError String,
      (∀ (path : String) (options : RenameOptions),
        rename path source options.verify options.parallel =
          result.mapError (.parse path source)) ∧
      (∀ e, result = .error e ↔ Program.parse source = .error e) ∧
      ∀ p, Program.parse source = .ok p →
        ∃ p', p.rename = .ok p' ∧ p.renameApart = .ok p' ∧ result = .ok p'.format := by
  cases hparse : Program.parse source with
  | error e =>
      refine ⟨.error e, fun path options => ?_, fun e' => ?_, nofun⟩
      · rw [rename, load, hparse]
        rfl
      · rw [Except.error.injEq, Except.error.injEq]
  | ok p =>
      obtain ⟨p', hrename, hapart, hcommand⟩ := rename_of_parse hparse
      refine ⟨.ok p'.format, fun path options => ?_, fun e => ?_, fun q hq => ?_⟩
      · exact hcommand path options.verify options.parallel
      · exact iff_of_false nofun nofun
      · obtain rfl := Except.ok.inj hq
        exact ⟨p', hrename, hapart, rfl⟩

end Command

end Freshen
