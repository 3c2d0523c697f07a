import Inlay.Proofs.Host.Remainder
import Inlay.Proofs.Markup.ContentReading

/-!
The loops of the scanners. Each is a run that repeats a round, and a round that is not the last one
takes at least one mark from the front. So no loop goes on for more rounds than there are marks,
whatever the text is.
-/

namespace Inlay

/-- The marks ahead are `next` after at least one was taken. -/
def Mark.Advances (ahead next : List Mark) : Prop := ∃ passed, passed ≠ [] ∧ ahead = passed ++ next

open Mark (Advances)

theorem Mark.advances_of_suffix {ahead next : List Mark} (suffix : next <:+ ahead)
    (shorter : next.length < ahead.length) : Advances ahead next := by
  obtain ⟨passed, rfl⟩ := suffix
  refine ⟨passed, ?_, rfl⟩
  rintro rfl
  exact Nat.lt_irrefl _ shorter

theorem Mark.advances_cons {m : Mark} {rest next : List Mark} (suffix : next <:+ rest) :
    Advances (m :: rest) next :=
  advances_of_suffix (suffix.trans (List.suffix_cons m rest)) (Nat.lt_succ_of_le suffix.length_le)

theorem Mark.Advances.of_suffix {marks ahead next : List Mark} (advances : Advances ahead next)
    (suffix : ahead <:+ marks) : Advances marks next := by
  obtain ⟨passed, some, rfl⟩ := advances
  obtain ⟨front, rfl⟩ := suffix
  exact ⟨front ++ passed, by simp [some], by simp⟩

/-- One round of a loop: it ends the loop with a result, or the loop goes on from another state. -/
inductive Round (σ ρ : Type) where
  | done (result : ρ)
  | more (next : σ)

/-- What a round says about the run from the state before it. -/
def Round.Leads {σ ρ : Type} (ahead : σ → List Mark) (run : σ → ρ) (state : σ) : Round σ ρ → Prop
  | .done result => run state = result
  | .more next => run state = run next ∧ Advances (ahead state) (ahead next)

/-- The run repeats the round, and each round that is not the last takes a mark. -/
def Loops {σ ρ : Type} (ahead : σ → List Mark) (round : σ → Round σ ρ) (run : σ → ρ) : Prop :=
  ∀ state, (round state).Leads ahead run state

namespace Scoped

def searchRound : List Mark × List Mark × Option Fault →
    Round (List Mark × List Mark × Option Fault) Outcome
  | (_, [], fault) => .done ⟨none, fault⟩
  | (before, m :: rest, fault) =>
      let next := rest.head?.map (·.char)
      let past (after : List Mark) := Round.more (passed before (m :: rest) after, after, fault)
      if isQuote m.char then past (afterQuote m.char false rest)
      else if m.char = '/' && next = some '/' then past (afterLine rest)
      else if m.char = '/' && next = some '*' then past (afterComment (rest.drop 1))
      else if startsRoot (m :: rest) && expectsOperand before then
        match fragmentEnd m rest with
        | .error new => .more (m :: before, rest, fault.or (some new))
        | .ok after =>
            if endsOperand after then .done ⟨some (m :: rest, after), fault⟩ else past after
      else .more (m :: before, rest, fault)

theorem search_loops :
    Loops (·.2.1) searchRound fun state => search state.1 state.2.1 state.2.2 := by
  intro state
  fun_cases searchRound state with
  | case1 before fault =>
      change search before [] fault = _
      rw [search]
  | case2 before m rest fault past quote =>
      refine ⟨?_, Mark.advances_cons (afterQuote_suffix _ _ rest)⟩
      dsimp only
      rw [search, if_pos quote]
  | case3 before m rest fault next past quote line =>
      refine ⟨?_, Mark.advances_cons (afterLine_suffix rest)⟩
      dsimp only
      rw [search, if_neg quote, if_pos line]
  | case4 before m rest fault next past quote line comment =>
      refine ⟨?_, Mark.advances_cons ((afterComment_suffix _).trans (List.drop_suffix 1 rest))⟩
      dsimp only
      rw [search, if_neg quote, if_neg line, if_pos comment]
  | case5 before m rest fault next quote line comment begins new ended =>
      refine ⟨?_, Mark.advances_cons (List.suffix_refl rest)⟩
      dsimp only
      rw [search, if_neg quote, if_neg line, if_neg comment, if_pos begins]
      split <;> simp_all
  | case6 before m rest fault next quote line comment begins after ended ends =>
      change search before (m :: rest) fault = _
      rw [search, if_neg quote, if_neg line, if_neg comment, if_pos begins]
      split <;> simp_all
  | case7 before m rest fault next past quote line comment begins after ended goesOn =>
      refine ⟨?_, Mark.advances_cons (fragmentEnd_suffix ended)⟩
      dsimp only
      rw [search, if_neg quote, if_neg line, if_neg comment, if_pos begins]
      split <;> simp_all
  | case8 before m rest fault next quote line comment begins =>
      refine ⟨?_, Mark.advances_cons (List.suffix_refl rest)⟩
      dsimp only
      rw [search, if_neg quote, if_neg line, if_neg comment, if_neg begins]

/-- One tag, run in braces or character inside an element. -/
def bodyRound (start : Position) (root : Bytes) :
    Nat × List Mark → Round (Nat × List Mark) (Except Fault (List Mark))
  | (_, []) => .done (.error ⟨.unterminatedTag, start, [("tag", root)]⟩)
  | (depth, m :: rest) =>
      if startsClosing (m :: rest) then
        let scanned := scanClosing m (rest.drop 1)
        match scanned.fault with
        | some fault => .done (.error fault)
        | none =>
            if isVoidName scanned.value then .more (depth, scanned.rest)
            else if depth ≤ 1 then
              if scanned.value = root then .done (.ok scanned.rest)
              else .done (.error ⟨.unmatchedClosingTag, m.pos,
                [("tag", scanned.value), ("open", root)]⟩)
            else .more (depth - 1, scanned.rest)
      else if startsTag (m :: rest) then
        let scanned := Tag.scan m rest
        if !scanned.value.closed then
          .done (.error ⟨.unterminatedTag, m.pos, [("tag", scanned.value.name)]⟩)
        else .more (if scanned.value.void then depth else depth + 1, scanned.rest)
      else if m.char = '\x7b' then
        match Braces.split (m :: rest) with
        | none => .done (.error ⟨.unbalancedExpression, m.pos, []⟩)
        | some (_, after) => .more (depth, after)
      else .more (depth, rest)

theorem bodyEnd_loops (start : Position) (root : Bytes) :
    Loops (·.2) (bodyRound start root) fun state => bodyEnd start root state.1 state.2 := by
  intro state
  have closing (m : Mark) (rest : List Mark) :
      Advances (m :: rest) (scanClosing m (rest.drop 1)).rest :=
    Mark.advances_cons ((scanClosing_suffix m _).trans (List.drop_suffix 1 rest))
  fun_cases bodyRound start root state with
  | case1 depth =>
      change bodyEnd start root depth [] = _
      rw [bodyEnd]
  | case2 depth m rest closes scanned fault wrong =>
      change bodyEnd start root depth (m :: rest) = _
      rw [bodyEnd, if_pos closes]
      simp only [show (scanClosing m (rest.drop 1)).fault = some fault from wrong]
  | case3 depth m rest closes scanned right void =>
      refine ⟨?_, closing m rest⟩
      dsimp only
      rw [bodyEnd, if_pos closes]
      simp only [show (scanClosing m (rest.drop 1)).fault = none from right]
      rw [if_pos void]
  | case4 depth m rest closes scanned right body outer same =>
      change bodyEnd start root depth (m :: rest) = _
      rw [bodyEnd, if_pos closes]
      simp only [show (scanClosing m (rest.drop 1)).fault = none from right]
      rw [if_neg body, if_pos outer, if_pos same]
  | case5 depth m rest closes scanned right body outer other =>
      change bodyEnd start root depth (m :: rest) = _
      rw [bodyEnd, if_pos closes]
      simp only [show (scanClosing m (rest.drop 1)).fault = none from right]
      rw [if_neg body, if_pos outer, if_neg other]
  | case6 depth m rest closes scanned right body inner =>
      refine ⟨?_, closing m rest⟩
      dsimp only
      rw [bodyEnd, if_pos closes]
      simp only [show (scanClosing m (rest.drop 1)).fault = none from right]
      rw [if_neg body, if_neg inner]
  | case7 depth m rest closes opens scanned unended =>
      change bodyEnd start root depth (m :: rest) = _
      rw [bodyEnd, if_neg closes, if_pos opens, if_pos unended]
  | case8 depth m rest closes opens scanned ended =>
      refine ⟨?_, Mark.advances_cons (Tag.scan_suffix m rest)⟩
      dsimp only
      rw [bodyEnd, if_neg closes, if_pos opens, if_neg ended]
  | case9 depth m rest closes opens brace found =>
      change bodyEnd start root depth (m :: rest) = _
      rw [bodyEnd, if_neg closes, if_neg opens, if_pos brace]
      split <;> simp_all
  | case10 depth m rest closes opens brace run after found =>
      refine ⟨?_,
        Mark.advances_of_suffix (Braces.split_suffix found) (Braces.split_length_lt found)⟩
      dsimp only
      rw [bodyEnd, if_neg closes, if_neg opens, if_pos brace]
      split <;> simp_all
  | case11 depth m rest closes opens brace =>
      refine ⟨?_, Mark.advances_cons (List.suffix_refl rest)⟩
      dsimp only
      rw [bodyEnd, if_neg closes, if_neg opens, if_neg brace]

end Scoped

/-- One attribute of a tag, or one character that is none. -/
def Tag.scanRound : Tag × Option Fault × List Mark →
    Round (Tag × Option Fault × List Mark) (Scanned Tag)
  | (tag, fault, marks) =>
      match Mark.skipBlank marks with
      | [] =>
          .done
            { value := tag
              fault := tag.blame fault (some ⟨.unterminatedTag, tag.pos, []⟩), rest := [] }
      | m :: rest =>
          let past (scanned : Scanned (Option Attribute)) :=
            Round.more (tag.add scanned.value, tag.blame fault scanned.fault, scanned.rest)
          if m.char = '>' then .done { value := { tag with closed := true }, fault, rest }
          else if m.char = '/' then .more ({ tag with selfClosing := true }, fault, rest)
          else if m.char = '\x7b' then past (Attribute.scanSpread m rest)
          else past (Attribute.scan (m :: rest))

theorem Tag.scanRest_loops :
    Loops (·.2.2) Tag.scanRound fun state => Tag.scanRest state.1 state.2.1 state.2.2 := by
  intro state
  fun_cases Tag.scanRound state with
  | case1 tag fault marks found =>
      change Tag.scanRest tag fault marks = _
      rw [Tag.scanRest]
      split <;> simp_all
  | case2 tag fault marks m rest found close =>
      change Tag.scanRest tag fault marks = _
      rw [Tag.scanRest]
      split <;> simp_all
  | case3 tag fault marks m rest found close slash =>
      have behind : m :: rest <:+ marks := found ▸ Mark.skipBlank_suffix marks
      refine ⟨?_, (Mark.advances_cons (List.suffix_refl rest)).of_suffix behind⟩
      dsimp only
      rw [Tag.scanRest]
      split <;> simp_all
  | case4 tag fault marks m rest found past close slash brace =>
      have behind : m :: rest <:+ marks := found ▸ Mark.skipBlank_suffix marks
      have advances := Mark.advances_of_suffix (Attribute.scanSpread_suffix m rest)
        (Attribute.scanSpread_rest_length_lt m rest)
      refine ⟨?_, advances.of_suffix behind⟩
      dsimp only
      rw [Tag.scanRest]
      split <;> simp_all
  | case5 tag fault marks m rest found past close slash brace =>
      have behind : m :: rest <:+ marks := found ▸ Mark.skipBlank_suffix marks
      have advances := Mark.advances_of_suffix (Attribute.scan_suffix (m :: rest))
        (Attribute.scan_rest_length_lt m rest)
      refine ⟨?_, advances.of_suffix behind⟩
      dsimp only
      rw [Tag.scanRest]
      split <;> simp_all

/-- One literal text and the expression behind it; `leaves` are those read before. -/
def Content.scanRound (depth : Int) :
    List Node × List Mark → Round (List Node × List Mark) (Scanned (List Node))
  | (leaves, marks) =>
      let read := leaves ++ literal depth (splitLiteral marks).1
      match (splitLiteral marks).2 with
      | [] => .done { value := read, rest := [] }
      | m :: rest =>
          if m.char != '\x7b' then .done { value := read, rest := m :: rest }
          else
            let inner := rest.takeWhile fun m => m.char != '\x7d'
            match rest.dropWhile fun m => m.char != '\x7d' with
            | [] =>
                .done { value := read ++ expression depth m.pos inner
                        fault := some ⟨.unbalancedExpression, m.pos, []⟩
                        rest := [] }
            | _ :: after => .more (read ++ expression depth m.pos inner, after)

theorem Content.scan_loops (depth : Int) :
    Loops (·.2) (scanRound depth)
      fun state => { scan depth state.2 with value := state.1 ++ (scan depth state.2).value } := by
  intro state
  have behind (marks : List Mark) : (splitLiteral marks).2 <:+ marks :=
    ⟨_, splitLiteral_append_self marks⟩
  fun_cases scanRound depth state with
  | case1 leaves marks read found =>
      have last : scan depth marks = ⟨literal depth (splitLiteral marks).1, none, []⟩ := by
        rw [scan]
        split <;> simp_all
      simp [Round.Leads, last, read]
  | case2 leaves marks read m rest found text =>
      have last : scan depth marks = _ :=
        scan_of_tag (show splitLiteral marks = (_, m :: rest) from Prod.ext rfl found)
          (by simpa using text)
      simp [Round.Leads, last, read]
  | case3 leaves marks read m rest found brace inner unended =>
      have last : scan depth marks =
        ⟨literal depth (splitLiteral marks).1 ++ expression depth m.pos inner,
          some ⟨.unbalancedExpression, m.pos, []⟩, []⟩ := by
        rw [scan]
        split
        · simp_all
        · rename_i found'
          rw [found] at found'
          cases found'
          rw [if_neg brace]
          split
          · rfl
          · simp_all
      simp [Round.Leads, last, read]
  | case4 leaves marks read m rest found brace inner close after ended =>
      have next : scan depth marks = _ :=
        scan_of_brace (show splitLiteral marks = (_, m :: rest) from Prod.ext rfl found)
          (by simpa using brace) ended
      have dropped := List.dropWhile_suffix (l := rest) fun m => m.char != '\x7d'
      rw [ended] at dropped
      refine ⟨by simp [next, read, inner], ?_⟩
      exact (Mark.advances_cons ((List.suffix_cons close after).trans dropped)).of_suffix
        (found ▸ behind marks)

/-- One step of an assembly, or its end. -/
def Assembly.round (assembly : Assembly) : Round Assembly Assembly :=
  match assembly.rest with
  | [] => .done assembly.finish
  | m :: more =>
      match assembly.step m more with
      | .done final => .done final
      | .more next => .more next

namespace Assembly

theorem openTag_suffix {assembly next : Assembly} {first : Mark} {rest : List Mark}
    (stepped : assembly.openTag first rest = .more next) : next.rest <:+ rest := by
  obtain ⟨scanned, node, scan, -, ⟨-, ended⟩ | ⟨-, -, ended⟩ | ⟨-, -, went⟩ | ⟨-, went⟩⟩ :=
    assembly.openTag_cases first rest
  · rw [ended] at stepped
    cases stepped
  · rw [ended] at stepped
    cases stepped
  · rw [went] at stepped
    cases stepped
    rw [place_rest]
    exact scan ▸ Tag.scan_suffix first rest
  · rw [went] at stepped
    cases stepped
    exact (absorb_suffix _).trans (scan ▸ Tag.scan_suffix first rest)

theorem closeTag_suffix {assembly next : Assembly} {first : Mark} {rest : List Mark}
    (stepped : assembly.closeTag first rest = .more next) : next.rest <:+ rest := by
  obtain ⟨scanned, scan,
      ⟨-, passed⟩ | ⟨fault, -, -, -, went⟩ | ⟨node, outer, wrong, -, -, -, -, closed⟩⟩ :=
    assembly.closeTag_cases first rest
  · rw [passed] at stepped
    cases stepped
    exact scan ▸ scanClosing_suffix first rest
  · rw [went] at stepped
    cases stepped
    rw [checked, report_rest]
    exact scan ▸ scanClosing_suffix first rest
  · rw [closed] at stepped
    split at stepped
    · cases stepped
    · cases stepped
      rw [place_rest, checked, report_rest]
      exact scan ▸ scanClosing_suffix first rest

theorem step_advances {assembly next : Assembly} {m : Mark} {more : List Mark}
    (marks : assembly.rest = m :: more) (stepped : assembly.step m more = .more next) :
    Advances assembly.rest next.rest := by
  have shorter := step_rest_length_lt marks stepped
  refine Mark.advances_of_suffix ?_ shorter
  rw [marks]
  unfold step at stepped
  split at stepped
  · exact (closeTag_suffix stepped).trans
      ((List.drop_suffix 1 more).trans (List.suffix_cons m more))
  · split at stepped
    · exact (openTag_suffix stepped).trans (List.suffix_cons m more)
    · split at stepped
      · cases stepped
        exact List.suffix_cons m more
      · cases stepped
        rw [readContent, report_rest, ← marks]
        exact Content.scan_suffix _ _

theorem run_loops : Loops rest round run := by
  intro assembly
  unfold round
  split
  · rename_i empty
    change assembly.run = _
    rw [run]
    split <;> simp_all
  · rename_i m more marks
    cases stepped : assembly.step m more with
    | done final => exact run_of_done marks stepped
    | more next => exact ⟨run_of_more marks stepped, step_advances marks stepped⟩

end Assembly

end Inlay
