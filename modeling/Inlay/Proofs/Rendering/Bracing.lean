import Inlay.Proofs.Host.Bracing
import Inlay.Proofs.Rendering.Caching
import Inlay.Proofs.Rendering.Pieces

/-!
Expressions with and without their braces. The body of an element is expanded with the braces around
it, the value of an attribute and an expression among text without them. Main statement: what an
expression becomes does not depend on the braces, so it becomes the same in all three places, up to
the line breaks that a body loses.
-/

namespace Inlay

open Mark (Trailed)

namespace Expansion

theorem splice_alike (code : Bytes → Bytes) {founds founds' : List Found}
    (alike : List.Forall₂ Found.Alike founds founds') (some : founds ≠ []) (first : Bool) :
    splice code (Locator.pieces first founds') =
      splice code (Locator.pieces first founds) ++ utf8 "\x7d" := by
  induction alike generalizing first with
  | nil => exact absurd rfl some
  | @cons found found' later later' same alike induction =>
      have before := Mark.text_eq_of_glyphs same.skipped
      have text := Mark.text_eq_of_glyphs same.body
      cases alike with
      | nil =>
          have after : Mark.text found'.rest = Mark.text found.rest ++ utf8 "\x7d" := same.rest.text
          simp [splice, Locator.pieces, Locator.piece, before, text, same.used, after]
      | @cons second second' later later' next alike =>
          have between := Mark.text_eq_of_glyphs next.skipped
          have others := induction (List.cons_ne_nil _ _) false
          simp only [splice, Locator.pieces, List.flatMap_cons, List.append_assoc] at others ⊢
          rw [others]
          simp [Locator.piece, before, text, between, same.used]

theorem splice_behind (code : Bytes → Bytes) {brace : Mark} (opens : brace.toGlyph = .ofChar '\x7b')
    {founds : List Found} (some : founds ≠ []) :
    splice code (Locator.pieces true (founds.modifyHead (Found.behind brace))) =
      utf8 "\x7b" ++ splice code (Locator.pieces true founds) := by
  have bytes : brace.bytes = utf8 "\x7b" := congrArg Glyph.bytes opens
  cases founds with
  | nil => exact absurd rfl some
  | cons found later => simp [splice, Locator.pieces, Locator.piece, Found.behind, Mark.text, bytes]

theorem result_braced {config : Config} (tokens : config.strategy ≠ .pattern) (text : Bytes) :
    result config (braced text) = braced (result config text) := by
  obtain ⟨brace, founds, opens, braces, alike⟩ := Strategy.founds_braced tokens text
  rw [result_eq, result_eq, (Locator.all_yields _).1, (Locator.all_yields _).1,
    Locator.yields_ofText, Locator.yields_ofText, braces]
  generalize config.strategy.founds [] (Mark.read text) = own at alike
  cases alike with
  | nil => rfl
  | @cons found found' later later' same alike =>
      have filled : found :: later ≠ [] := List.cons_ne_nil _ _
      have spliced :=
        splice_alike (code config.labels (result config)) (.cons same alike) filled true
      simp only [List.modifyHead_cons, Locator.pieces, List.isEmpty_cons,
        Bool.false_eq_true, if_false]
      exact (splice_behind _ opens (List.cons_ne_nil found' later')).trans
        (by rw [spliced, braced, List.append_assoc]; rfl)

end Expansion

open RenderM (keeps_pure)

section

variable {config : Config} {inv : Session → Prop} {code : Bytes}

theorem Renderer.leaf_keeps (unhooked : config.hooks = {}) {node : Node}
    (expression : node.expr = true) (expands : (Inlay.expand config node.text).Keeps inv code) :
    ((ofConfig config).leaf node).Keeps inv (defaultText config.labels code) := by
  simp only [leaf, expression, if_true, Renderer.text, ofConfig, unhooked]
  exact expands.bind (keeps_pure _)

end

/-- An expression becomes the same with and without its braces, which stay around it. So it becomes
the same as the value of an attribute, among text, and as the whole body of an element, where it
comes on one line. -/
theorem expand_braced {config : Config} (unhooked : config.hooks = {})
    (tokens : config.strategy ≠ .pattern) (text : Bytes) :
    ∃ code, ∀ session : Session, session.Unhooked →
      ((expand config text).run session).1 = code ∧
      ((expand config (braced text)).run session).1 = braced code ∧
      (((Renderer.ofConfig config).value ⟨text, true⟩).run session).1 = code ∧
      (∀ node : Node, node.expr = true → node.text = text →
        (((Renderer.ofConfig config).leaf node).run session).1 =
          Renderer.defaultText config.labels code) ∧
      ∀ node : Node, node.raw = braced text →
        (((Renderer.ofConfig config).rawBody node).run session).1 =
          utf8 ",\n" ++ tabs node.depth ++
            Utf8.ofChars ((Utf8.chars code).filter fun c => !Renderer.isLineSpace c) ++
            utf8 "\n" ++ tabs (node.depth - 1) ++ utf8 ")" := by
  refine ⟨Expansion.result config text, fun session reached => ?_⟩
  have keeps := config.respects_sound.expand_keeps unhooked
  have gives {step : RenderM Bytes} {code : Bytes}
      (keeps : step.Keeps (fun session => session.cache.Sound) code) :
      (step.run session).1 = code := by
    obtain ⟨later, run, -⟩ := keeps session reached.sound
    rw [run]
  have braces := Expansion.result_braced tokens text
  refine ⟨gives (keeps text), braces ▸ gives (keeps (braced text)), gives (keeps text), ?_, ?_⟩
  · intro node expression same
    exact gives (Renderer.leaf_keeps unhooked expression (same ▸ keeps node.text))
  · intro node raw
    rw [← Code.line_braces braces, ← raw]
    exact gives (Renderer.rawBody_keeps (keeps node.raw))

/-- A fragment inside another, a tag whose element never ends, and a void element right before the
brace. -/
theorem expand_braced_void :
    ∃ text code, text = utf8 "a ? <p k=\x7b<i/>\x7d>b</p> : <u + <br>" ∧
      code =
        utf8 "a ? VElement('p', \x7bk: VElement('i', null,\n\tnull\n)\x7d,[\n\tVText('b')\n])" ++
        utf8 " : <u + VElement('br', null,\n\tnull\n)" ∧
      ∀ session : Session, session.Unhooked →
        ((expand {} text).run session).1 = code ∧
          ((expand {} (braced text)).run session).1 = braced code := by
  have unhooked : ({} : Config).hooks = {} := rfl
  obtain ⟨code, becomes⟩ := expand_braced unhooked (by decide)
    (utf8 "a ? <p k=\x7b<i/>\x7d>b</p> : <u + <br>")
  have first := (becomes {} ⟨[], List.forall_mem_nil _, rfl⟩).1
  refine ⟨_, code, rfl, first.symm.trans (by decide +kernel), ?_⟩
  intro session reached
  obtain ⟨plain, braces, -⟩ := becomes session reached
  exact ⟨plain, braces⟩

end Inlay
