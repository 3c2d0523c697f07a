import Inlay.Command.Eval
import Inlay.Proofs.Host.Trailing
import Inlay.Proofs.Rendering.Replacement

/-!
The first fragment of a source. The command locates the fragment, forgets where it stood and
transforms its text, which locates it again. Reading token by token finds it again as a whole;
between boundaries it is never found again, since there is no boundary behind it.
-/

namespace Inlay

theorem getLast?_trimList {α : Type} (p : α → Bool) (items : List α) (last : α)
    (kept : p last = false) :
    (trimList p (items ++ [last])).getLast? = some last := by
  have dropped : ∃ front, (items ++ [last]).dropWhile p = front ++ [last] := by
    induction items with
    | nil => exact ⟨[], by simp [kept]⟩
    | cons first rest induction =>
        by_cases gone : p first = true
        · simpa [gone] using induction
        · exact ⟨first :: rest, by simp [gone]⟩
  obtain ⟨front, shape⟩ := dropped
  rw [trimList, shape, List.reverse_append, List.reverse_singleton, List.singleton_append,
    List.dropWhile_cons_of_neg (by simp [kept])]
  simp

theorem getLast?_trim {text : Bytes} {byte : UInt8} (ascii : byte.toNat < 0x80)
    (kept : isBlank (Char.ofNat byte.toNat) = false) (last : text.getLast? = some byte) :
    (trim text).getLast? = some byte := by
  obtain ⟨front, rfl⟩ := List.getLast?_eq_some_iff.1 last
  have separate : Utf8.Separate [byte] := by simpa [Utf8.Separate] using ascii
  have single : Utf8.glyphs [byte] = [⟨Char.ofNat byte.toNat, [byte]⟩] := by
    rw [Utf8.glyphs_cons, Utf8.decodeAt_one ascii]
    simp [Utf8.glyphs, Utf8.glyphsFrom]
  have ends : (trimList (fun g : Glyph => isBlank g.char)
      (Utf8.glyphs front ++ [⟨Char.ofNat byte.toNat, [byte]⟩])).getLast? =
        some ⟨Char.ofNat byte.toNat, [byte]⟩ := by
    apply getLast?_trimList
    exact kept
  obtain ⟨inner, shape⟩ := List.getLast?_eq_some_iff.1 ends
  rw [trim, Utf8.glyphs_append separate, single, shape, List.flatMap_append, List.flatMap_singleton,
    List.getLast?_concat]

theorem Code.getLast?_node (labels : Labels) (expand : Bytes → Bytes) {tree : Node}
    (tag : tree.kind ≠ .text) :
    (Code.node labels expand tree).getLast? = some 41 := by
  obtain ⟨kind, name, attributes, children, raw, text, expr, depth, void, pos⟩ := tree
  rw [Code.node, if_neg tag, Renderer.call, List.getLast?_append]
  split
  · unfold Renderer.layOutChildren
    split
    · rw [List.getLast?_append]
      rfl
    · rw [List.getLast?_append]
      rfl
  · rw [Code.rawBody, List.getLast?_append]
    rfl

namespace Expansion

theorem getLast?_splice {code : Bytes → Bytes} {fragments : List Fragment} (some : fragments ≠ [])
    (behind : ∀ f ∈ fragments, f.after ≠ []) :
    (splice code fragments).getLast? = (fragments.flatMap Fragment.whole).getLast? := by
  obtain ⟨front, last, rfl⟩ := (List.eq_nil_or_concat fragments).resolve_left some
  have after := behind last (by simp)
  rw [List.concat_eq_append, splice, List.flatMap_append, List.flatMap_append,
    List.flatMap_singleton, List.flatMap_singleton, Fragment.whole]
  simp only [List.getLast?_append_of_ne_nil _ after, ← List.append_assoc]

theorem getLast?_result {config : Config} (pattern : config.strategy = .pattern) (text : Bytes) :
    (result config text).getLast? = text.getLast? := by
  rw [result_eq, pattern]
  split
  · rfl
  · rename_i some
    have some : (Locator.ofText text .pattern).all.1 ≠ [] := by simpa using some
    rw [getLast?_splice some fun f member => (Locator.all_pattern member).2]
    rw [(Locator.all_yields _).1] at some ⊢
    rw [Locator.yields_whole text .pattern some]

end Expansion

namespace Evaluation

variable {config : Config}

theorem firstFragment_run (unhooked : config.hooks = {}) (lenient : config.strict = false)
    (name text : Bytes) {world : World} (sound : world.session.cache.Sound) :
    ((firstFragment config name text).run.run world).1 =
      match (Locator.ofText text config.strategy).all.1.head? with
      | none => .error (Problem.noFragment.withAttrs [Log.Attr.string "source" name])
      | some f => .ok (trim (Expansion.result config f.text)) := by
  have first : (Locator.ofText text config.strategy).next.1 =
      (Locator.ofText text config.strategy).all.1.head? := by
    rw [(Locator.next_yields _).1, (Locator.all_yields _).1]
  unfold firstFragment
  rw [first]
  cases (Locator.ofText text config.strategy).all.1.head? with
  | none => rfl
  | some f =>
      have transformed := transform_lenient unhooked lenient f.text sound
      have rendered : (CommandM.rendering (transform config f.text)).run.run world =
          (.ok ((transform config f.text).run world.session).1,
            { world with session := ((transform config f.text).run world.session).2 }) := rfl
      dsimp only
      rw [ExceptT.run_bind, StateT.run_bind, rendered, transformed]
      rfl

/-- Leniently and without hooks, the command fails for want of a fragment exactly if there is none.
Where the first fragment has a tree, it gives the code of the tree, trimmed, exactly if fragments
are not located by the boundaries around them. -/
theorem firstFragment_eq_render_iff (unhooked : config.hooks = {}) (lenient : config.strict = false)
    (name text : Bytes) {world : World} (reached : world.session.Unhooked) :
    (((firstFragment config name text).run.run world).1 =
        .error (Problem.noFragment.withAttrs [Log.Attr.string "source" name]) ↔
      (Locator.ofText text config.strategy).all.1 = []) ∧
    ∀ f root, (Locator.ofText text config.strategy).all.1.head? = some f →
      ((parse config f.text).run world.session).1.1 = some root →
        ∃ out code, ((firstFragment config name text).run.run world).1 = .ok out ∧
          ((render config root).run world.session).1 = .ok code ∧
          (out = trim code ↔ config.strategy ≠ .pattern) := by
  rw [firstFragment_run unhooked lenient name text reached.sound]
  refine ⟨?_, ?_⟩
  · cases (Locator.ofText text config.strategy).all.1 with
    | nil => simp
    | cons f rest => simp
  · intro f root first parsed
    have tree := tree_of_parsed parsed
    have code : Expansion.code config.labels (Expansion.result config) f.text =
        Code.node config.labels (Expansion.result config) root := by
      rw [Expansion.code, tree]
    have member := List.mem_of_mem_head? first
    rw [first]
    refine ⟨_, _, rfl, render_lenient unhooked lenient root reached.sound, ?_⟩
    constructor
    · -- The fragment keeps its `>` at the end, while its code ends with a parenthesis.
      intro same pattern
      have last : (Expansion.result config f.text).getLast? = some 62 := by
        rw [Expansion.getLast?_result pattern]
        exact (Locator.all_pattern (pattern ▸ member)).1
      have last' := Code.getLast?_node config.labels (Expansion.result config)
        (Assembly.read_tree_kind root tree)
      have ends := getLast?_trim (by decide) (by decide) last
      rw [same, getLast?_trim (by decide) (by decide) last'] at ends
      cases ends
    · intro tokens
      rw [Expansion.result_of_tokens tokens member, code]

/-- The first of two fragments, with another one inside, read token by token. -/
theorem firstFragment_eq_render_scoped :
    let text := utf8 "f(<p>a \x7b<b/>\x7d</p>, <i/>);"
    ∃ f root out code, (Locator.ofText text .scoped).all.1.head? = some f ∧
      ((parse {} f.text).run {}).1.1 = some root ∧
      ((firstFragment {} (utf8 "-") text).run.run {}).1 = .ok out ∧
      ((render {} root).run {}).1 = .ok code ∧ out = trim code := by
  intro text
  have parses : ((Locator.ofText text .scoped).all.1.head?.any fun f =>
      ((parse {} f.text).run {}).1.1.isSome) = true := by decide +kernel
  obtain ⟨f, first, parses⟩ := (Option.any_eq_true _ _).1 parses
  obtain ⟨root, parsed⟩ := Option.isSome_iff_exists.1 parses
  have reached : Session.Unhooked {} := ⟨[], List.forall_mem_nil _, rfl⟩
  obtain ⟨-, renders⟩ := @firstFragment_eq_render_iff {} rfl rfl (utf8 "-") text {} reached
  obtain ⟨out, code, given, rendered, same⟩ := renders f root first parsed
  exact ⟨f, root, out, code, first, parsed, given, rendered, same.2 (by decide)⟩

/-- The only fragment is found between its boundaries, but not by itself: it comes out as it is. -/
theorem firstFragment_pattern_unrendered :
    let text := utf8 "(<div>x</div>);"
    let config : Config := { strategy := .pattern }
    ∃ f root, (Locator.ofText text .pattern).all.1 = [f] ∧
      ((parse config f.text).run {}).1.1 = some root ∧
      ((firstFragment config (utf8 "-") text).run.run {}).1.toOption = some (utf8 "<div>x</div>") ∧
      ((render config root).run {}).1.toOption =
        some (utf8 "VElement('div', null,[\n\tVText('x')\n])") := by
  intro text config
  have located : (Locator.ofText text .pattern).all.1 =
      [⟨utf8 "(", utf8 "<div>x</div>", utf8 ");", 1, 13⟩] := by decide +kernel
  have rendered : (((parse config (utf8 "<div>x</div>")).run {}).1.1.any fun root =>
      ((render config root).run {}).1.toOption =
        some (utf8 "VElement('div', null,[\n\tVText('x')\n])")) = true := by decide +kernel
  obtain ⟨root, parsed, rendered⟩ := (Option.any_eq_true _ _).1 rendered
  exact ⟨_, root, located, parsed, by decide +kernel, by simpa using rendered⟩

end Evaluation

end Inlay
