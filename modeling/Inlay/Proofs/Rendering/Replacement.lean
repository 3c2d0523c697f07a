import Inlay.Proofs.Host.Containment
import Inlay.Proofs.Rendering.Caching

/-!
Fragments in their places. Transforming a text leniently puts something in the place of each
fragment and keeps the rest; what it puts there is what the fragment becomes when it is transformed
by itself.
-/

namespace Inlay

theorem Expansion.result_of_tokens {config : Config} (tokens : config.strategy ≠ .pattern)
    {source : Bytes} {f : Fragment} (found : f ∈ (Locator.ofText source config.strategy).all.1) :
    result config f.text = code config.labels (result config) f.text := by
  obtain ⟨first, own, marks, root, ended⟩ := Fragment.ended_of_located tokens found
  have only := (Locator.all_of_ended marks root ended).1
  rw [result_eq, Locator.all_of_ne tokens, only]
  simp [splice, Fragment.ofWhole]

theorem Expansion.result_of_located {config : Config} (strategy : config.strategy = .scoped)
    {source : Bytes} {f : Fragment} (found : f ∈ (Locator.ofText source .scoped).all.1) :
    result config f.text = code config.labels (result config) f.text :=
  result_of_tokens (by simp [strategy]) (strategy ▸ found)

theorem Expansion.result_eq_splice {config : Config} (strategy : config.strategy = .scoped)
    (source : Bytes) :
    result config source =
      if (Locator.ofText source .scoped).all.1.isEmpty then source
      else splice (result config) (Locator.ofText source .scoped).all.1 := by
  rw [result_eq, strategy]
  split
  · rfl
  · exact splice_congr fun f found => (result_of_located strategy found).symm

/-- A fragment is self-contained. In its own text, the fragment is found as a whole and nothing
else, and no fault is met. So, leniently, without hooks and whatever was transformed before, the
source becomes what its fragments become by themselves, in their places. -/
theorem transform_fragment_alone (source : Bytes) :
    let fragments := (Locator.ofText source .scoped).all.1
    (∀ f ∈ fragments, (Locator.ofText f.text .scoped).all.1 = [⟨[], f.text, [], 0, f.text.length⟩] ∧
      (Locator.ofText f.text .scoped).all.2.fault = none) ∧
    (fragments ≠ [] → (fragments.flatMap fun f => f.before ++ f.text ++ f.after) = source) ∧
    ∀ config : Config, config.hooks = {} → config.strict = false → config.strategy = .scoped →
      ∃ become : Bytes → Bytes, ∀ session : Session, session.Unhooked →
        (∀ f ∈ fragments, ((transform config f.text).run session).1 = .ok (become f.text)) ∧
        ((transform config source).run session).1 =
          .ok (if fragments.isEmpty then source
            else fragments.flatMap fun f => f.before ++ become f.text ++ f.after) := by
  intro fragments
  refine ⟨fun f found => ?_, fun some => ?_, fun config unhooked lenient strategy => ?_⟩
  · obtain ⟨first, own, marks, root, ended⟩ := Fragment.ended_of_located (by decide) found
    exact Locator.all_of_ended marks root ended
  · have yielded : fragments = (Locator.ofText source .scoped).yields := (Locator.all_yields _).1
    rw [yielded] at some ⊢
    exact Locator.yields_whole source .scoped some
  · refine ⟨Expansion.result config, fun session reached => ⟨fun f _ => ?_, ?_⟩⟩
    · exact transform_lenient unhooked lenient f.text reached.sound
    · rw [transform_lenient unhooked lenient source reached.sound,
        Expansion.result_eq_splice strategy]
      rfl

/-- A void root that has a closing tag behind it, and an element with another one inside. -/
theorem transform_fragment_alone_two :
    let source := utf8 "p = <br>x</br>, q = <a>\x7b<b/>\x7d</a>"
    let fragments := (Locator.ofText source .scoped).all.1
    fragments.map Fragment.text = [utf8 "<br>x</br>", utf8 "<a>\x7b<b/>\x7d</a>"] ∧
      (∀ f ∈ fragments,
        (Locator.ofText f.text .scoped).all.1 = [⟨[], f.text, [], 0, f.text.length⟩]) ∧
      ∃ become : Bytes → Bytes,
        (∀ f ∈ fragments, ((transform { cache := true } f.text).run {}).1 = .ok (become f.text)) ∧
        ((transform { cache := true } source).run {}).1 =
          .ok (fragments.flatMap fun f => f.before ++ become f.text ++ f.after) := by
  intro source fragments
  have texts : fragments.map Fragment.text = [utf8 "<br>x</br>", utf8 "<a>\x7b<b/>\x7d</a>"] := by
    decide +kernel
  have some : ¬ fragments.isEmpty = true := by decide +kernel
  obtain ⟨whole, -, replaced⟩ := transform_fragment_alone source
  obtain ⟨become, runs⟩ := replaced { cache := true } rfl rfl rfl
  obtain ⟨alone, inside⟩ := runs {} ⟨[], List.forall_mem_nil _, rfl⟩
  rw [if_neg some] at inside
  exact ⟨texts, fun f found => (whole f found).1, become, alone, inside⟩

end Inlay
