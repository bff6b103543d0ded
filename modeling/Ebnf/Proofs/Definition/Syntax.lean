import Ebnf.Definition.Reader
import Ebnf.Proofs.Definition.Lifting
import Ebnf.Proofs.Source.Scanning

/-!
# The syntax of definitions

Which texts are definitions is stated here as a grammar, without reading anything: a primary is a
literal, a pattern, a name or definitions in a bracket, an alternative is primaries with commas
between them, and definitions are alternatives with bars between them.  Reading a text gives
definitions that it is the text of, unless something in it cannot be read, and no others.

## Main definitions

* `IsName` — what can be a name.
* `Primary.WrittenAs`, `Primary.AllWrittenAs`, `Definitions.WrittenAs` — the grammar.

## Main results

* `Definitions.WrittenAs.read_eq` — definitions are read from their text.
* `Definitions.writtenAs_read` — what is read, if all of it can be, is written so.
* `Definitions.writtenAs_iff` — **reading is right**: both together.
-/

namespace Ebnf

open Source (LiteralBody Solid Closed never scan separates splitTop literalEnd? bracketEnd?
  closingQuote? closingQuote?_eq_some_iff unescapeQuotes)

/-! ### Names -/

/-- A name has some character, and none that is reserved. -/
def IsName (name : List Char) : Prop := name ≠ [] ∧ ∀ c ∈ name, c ∉ reservedCharacters

theorem reservedCharacter?_eq_none_iff {name : List Char} :
    reservedCharacter? name = none ↔ ∀ c ∈ name, c ∉ reservedCharacters := by
  rw [reservedCharacter?, List.find?_eq_none]
  simp only [List.contains_iff_mem]

theorem neutral_of_notMem_reserved {c : Char} (h : c ∉ reservedCharacters) :
    Source.Neutral .plain c := by
  intro _
  constructor
  · rcases hc : Bracket.ofOpener? c with _ | b
    · rfl
    · rw [Bracket.eq_opener_of_ofOpener? hc] at h
      exact absurd (by cases b <;> decide) h
  · rcases hc : Bracket.ofCloser? c with _ | b
    · rfl
    · rw [Bracket.eq_closer_of_ofCloser? hc] at h
      exact absurd (by cases b <;> decide) h

/-- A character that is not the separator does not separate. -/
theorem separates_of_ne {sep c : Char} (h : c ≠ sep) : separates sep c = false := by
  simp [separates, h]

variable [Pattern.Engine]

/-! ### The grammar -/

mutual

/-- The primary is written as the text, with no layout outside its literals. -/
inductive Primary.WrittenAs : Primary → List Char → Prop
  /-- A terminal is a literal. -/
  | terminal {body : List Char} (h : LiteralBody body) :
    Primary.WrittenAs (.terminal body) ('"' :: (body ++ ['"']))
  /-- A pattern is a literal with a mark before it. -/
  | pattern {body : List Char} {p : Pattern} (h : LiteralBody body)
    (hp : Pattern.ofSource (String.ofList (unescapeQuotes body)) = .ok p) :
    Primary.WrittenAs (.pattern p) ('!' :: '"' :: (body ++ ['"']))
  /-- A name is written as it is. -/
  | name {name : List Char} (h : IsName name) : Primary.WrittenAs (.name name) name
  /-- Definitions stand between a bracket's two characters. -/
  | bracketed (bracket : Bracket) {inner : List (List Primary)} {text : List Char}
    (h : Definitions.WrittenAs inner text) :
    Primary.WrittenAs (.bracketed bracket inner) (bracket.opener :: (text ++ [bracket.closer]))

/-- The primaries of an alternative are written as the text. -/
inductive Primary.AllWrittenAs : List Primary → List Char → Prop
  /-- One primary. -/
  | single {p : Primary} {text : List Char} (h : p.WrittenAs text) : Primary.AllWrittenAs [p] text
  /-- A primary, a comma and further ones. -/
  | cons {p : Primary} {text : List Char} {others : List Primary} {rest : List Char}
    (h : p.WrittenAs text) (hrest : Primary.AllWrittenAs others rest) :
    Primary.AllWrittenAs (p :: others) (text ++ ',' :: rest)

/-- The definitions are written as the text: alternatives between bars, each with its primaries
between commas. -/
inductive Definitions.WrittenAs : List (List Primary) → List Char → Prop
  /-- One alternative. -/
  | single {alt : List Primary} {text : List Char} (h : Primary.AllWrittenAs alt text) :
    Definitions.WrittenAs [alt] text
  /-- An alternative, a bar and further ones. -/
  | cons {alt : List Primary} {text : List Char} {others : List (List Primary)} {rest : List Char}
    (h : Primary.AllWrittenAs alt text) (hrest : Definitions.WrittenAs others rest) :
    Definitions.WrittenAs (alt :: others) (text ++ '|' :: rest)

end

/-! ### Texts of definitions are solid -/

mutual

theorem Primary.WrittenAs.solid {sep : Char} (hsep : sep = ',' ∨ sep = '|') :
    ∀ {p text}, Primary.WrittenAs p text → Solid sep text
  | _, _, .terminal h => h.scan_quoted (by rcases hsep with rfl | rfl <;> rfl)
  | _, _, .pattern h _ => by
    have hmark : separates sep '!' = false := by rcases hsep with rfl | rfl <;> rfl
    have hneutral : Source.Neutral .plain '!' := fun _ => ⟨rfl, rfl⟩
    rw [Solid, Source.scan_cons_of_neutral hneutral (by decide) hmark]
    exact h.scan_quoted (by rcases hsep with rfl | rfl <;> rfl)
  | _, _, .name h => by
    refine Source.scan_of_neutral fun c hc => ?_
    have hfree := h.2 c hc
    refine ⟨neutral_of_notMem_reserved hfree, ?_, separates_of_ne ?_⟩
    · rintro rfl
      exact hfree (by decide)
    · rintro rfl
      exact hfree (by rcases hsep with rfl | rfl <;> decide)
  | _, _, .bracketed bracket h => h.closed.scan_bracketed bracket (Source.separates_opener sep _)

theorem Primary.AllWrittenAs.solid : ∀ {ps text}, Primary.AllWrittenAs ps text → Solid '|' text
  | _, _, .single h => h.solid (Or.inr rfl)
  | _, _, .cons h hrest => by
    rw [Solid, Source.scan_append (h.solid (Or.inr rfl)),
      Source.scan_cons_of_neutral (fun _ => ⟨rfl, rfl⟩) (by decide) rfl]
    exact hrest.solid

theorem Definitions.WrittenAs.closed : ∀ {d text}, Definitions.WrittenAs d text → Closed text
  | _, _, .single h => h.solid.closed
  | _, _, .cons h hrest => by
    rw [Closed, Source.scan_append h.solid.closed,
      Source.scan_cons_of_neutral (fun _ => ⟨rfl, rfl⟩) (by decide) rfl]
    exact hrest.closed

end

theorem Primary.WrittenAs.ne_nil : ∀ {p text}, Primary.WrittenAs p text → text ≠ []
  | _, _, .terminal _ => List.cons_ne_nil _ _
  | _, _, .pattern _ _ => List.cons_ne_nil _ _
  | _, _, .name h => h.1
  | _, _, .bracketed _ _ => List.cons_ne_nil _ _

theorem Primary.AllWrittenAs.ne_nil : ∀ {ps text}, Primary.AllWrittenAs ps text → text ≠ []
  | _, _, .single h => h.ne_nil
  | _, _, .cons _ _ => List.append_ne_nil_of_right_ne_nil _ (List.cons_ne_nil _ _)

/-! ### Reading -/

theorem readDefinitions_of_splitTop {text : List Char} {pieces : List (List Char)}
    (h : splitTop '|' text = .ok pieces) : readDefinitions text = pieces.map readAlternative := by
  rw [readDefinitions]
  split
  · next fault heq =>
    rw [h] at heq
    cases heq
  · next pieces' heq =>
    rw [h] at heq
    cases heq
    exact List.attach_map_val (f := readAlternative)

theorem readDefinitions_of_error {text : List Char} {fault : Source.SplitFault}
    (h : splitTop '|' text = .error fault) :
    readDefinitions text = [[.unreadable (.split fault text)]] := by
  rw [readDefinitions]
  split
  · next fault' heq =>
    rw [h] at heq
    cases heq
    rfl
  · next pieces heq =>
    rw [h] at heq
    cases heq

theorem readAlternative_of_splitTop {text : List Char} {tokens : List (List Char)}
    (hne : text ≠ []) (h : splitTop ',' text = .ok tokens) :
    readAlternative text = tokens.map readPrimary := by
  rw [readAlternative, if_neg (by simpa using hne)]
  split
  · next fault heq =>
    rw [h] at heq
    cases heq
  · next tokens' heq =>
    rw [h] at heq
    cases heq
    exact List.attach_map_val (f := readPrimary)

omit [Pattern.Engine] in
/-- The end of a literal in quotes is its last character. -/
theorem literalEnd?_quoted {body : List Char} (h : LiteralBody body) :
    literalEnd? ('"' :: (body ++ ['"'])) 0 = some (body ++ ['"']).length := by
  have hquote : closingQuote? (body ++ ['"']) = some body.length :=
    closingQuote?_eq_some_iff.mpr ⟨body, [], rfl, h, rfl⟩
  rw [literalEnd?, List.drop_succ_cons, List.drop_zero, hquote, List.length_append]
  simp [Nat.add_comm]

theorem readPattern_quoted {body : List Char} {p : Pattern} (h : LiteralBody body)
    (hp : Pattern.ofSource (String.ofList (unescapeQuotes body)) = .ok p) :
    readPattern ('!' :: '"' :: (body ++ ['"'])) = .pattern p := by
  have hquote : closingQuote? (body ++ ['"']) = some body.length :=
    closingQuote?_eq_some_iff.mpr ⟨body, [], rfl, h, rfl⟩
  have hend : literalEnd? ('!' :: '"' :: (body ++ ['"'])) 1 = some (body.length + 2) := by
    rw [literalEnd?, List.drop_succ_cons, List.drop_succ_cons, List.drop_zero, hquote]
    simp [Nat.add_comm]
  rw [readPattern, hend, if_neg (by simp)]
  have hinner : (('!' :: '"' :: (body ++ ['"'])).drop 2).dropLast = body := by simp
  rw [hinner, hp]

mutual

/-- A primary is read from its text, so two primaries that are written alike are the same. -/
theorem Primary.WrittenAs.read_eq : ∀ {p text}, Primary.WrittenAs p text → readPrimary text = p
  -- the quote that ends the literal is the last character
  | _, _, .terminal h => by
    rw [readPrimary, if_pos rfl, if_pos (literalEnd?_quoted h), List.dropLast_concat]
  | _, _, .pattern h hp => by
    rw [readPrimary, if_neg (by decide), if_pos rfl]
    exact readPattern_quoted h hp
  -- no character of a name is reserved, so neither a literal nor a bracket begins with it
  | _, _, @Primary.WrittenAs.name _ name h => by
    obtain ⟨hne, hfree⟩ := h
    cases name with
    | nil => exact absurd rfl hne
    | cons c rest =>
      have hc := hfree c List.mem_cons_self
      have hquote : c ≠ '"' := by rintro rfl; exact hc (by decide)
      have hmark : c ≠ '!' := by rintro rfl; exact hc (by decide)
      rw [readPrimary, if_neg hquote, if_neg hmark, (neutral_of_notMem_reserved hc rfl).1,
        reservedCharacter?_eq_none_iff.mpr hfree]
  -- the closer that belongs to the opener is the last character
  | _, _, @Primary.WrittenAs.bracketed _ bracket inner text h => by
    have hquote : bracket.opener ≠ '"' := by cases bracket <;> decide
    have hmark : bracket.opener ≠ '!' := by cases bracket <;> decide
    have hend : bracketEnd? (bracket.opener :: (text ++ [bracket.closer])) 0
        = some (text ++ [bracket.closer]).length := by
      rw [Source.bracketEnd?_of_closed bracket h.closed, List.length_append]
      rfl
    rw [readPrimary, if_neg hquote, if_neg hmark, Bracket.ofOpener?_opener]
    dsimp only
    rw [if_pos hend, List.dropLast_concat, h.read_eq]

theorem Primary.AllWrittenAs.splitTop_eq : ∀ {ps text}, Primary.AllWrittenAs ps text →
    ∃ tokens, splitTop ',' text = .ok tokens ∧ tokens.map readPrimary = ps
  | _, _, .single h =>
    ⟨_, Source.splitTop_of_solid (h.solid (Or.inl rfl)), congrArg (fun p => [p]) h.read_eq⟩
  | _, _, .cons h hrest => by
    obtain ⟨tokens, hsplit, hread⟩ := hrest.splitTop_eq
    refine ⟨_, Source.splitTop_append rfl (h.solid (Or.inl rfl)) hsplit, ?_⟩
    rw [List.map_cons, h.read_eq, hread]

theorem Definitions.WrittenAs.splitTop_eq : ∀ {d text}, Definitions.WrittenAs d text →
    ∃ pieces, splitTop '|' text = .ok pieces ∧ pieces.map readAlternative = d
  | _, _, .single h => by
    obtain ⟨tokens, hsplit, hread⟩ := h.splitTop_eq
    refine ⟨_, Source.splitTop_of_solid h.solid, ?_⟩
    rw [List.map_cons, readAlternative_of_splitTop h.ne_nil hsplit, hread, List.map_nil]
  | _, _, .cons h hrest => by
    obtain ⟨tokens, hsplit, hread⟩ := h.splitTop_eq
    obtain ⟨pieces, hsplit', hread'⟩ := hrest.splitTop_eq
    refine ⟨_, Source.splitTop_append rfl h.solid hsplit', ?_⟩
    rw [List.map_cons, readAlternative_of_splitTop h.ne_nil hsplit, hread, hread']

/-- Definitions are read from their text, since no bar or comma that separates stands in a literal
or a bracket. -/
theorem Definitions.WrittenAs.read_eq : ∀ {d text}, Definitions.WrittenAs d text →
    readDefinitions text = d
  | _, _, h => by
    obtain ⟨pieces, hsplit, hread⟩ := h.splitTop_eq
    rw [readDefinitions_of_splitTop hsplit, hread]

end

/-! ### What can be read -/

omit [Pattern.Engine] in
/-- A literal that takes all of a token. -/
theorem eq_quoted_of_literalEnd? {rest : List Char}
    (h : (closingQuote? rest).map (· + 1) = some rest.length) :
    ∃ body, rest = body ++ ['"'] ∧ LiteralBody body := by
  obtain ⟨n, hn, hlength⟩ := Option.map_eq_some_iff.mp h
  obtain ⟨body, after, rfl, hbody, rfl⟩ := closingQuote?_eq_some_iff.mp hn
  rw [List.length_append, List.length_cons] at hlength
  have hnil : after = [] := List.length_eq_zero_iff.mp (by omega)
  exact ⟨body, by rw [hnil], hbody⟩

theorem writtenAs_readPattern {token : List Char} (h : (readPattern ('!' :: token)).Readable) :
    (readPattern ('!' :: token)).WrittenAs ('!' :: token) := by
  rw [readPattern] at h ⊢
  -- a token of another form cannot be read
  split at h
  · exact h.elim
  · next hform =>
    rw [if_neg hform]
    simp only [not_or, not_not] at hform
    obtain ⟨-, hquote, hend⟩ := hform
    cases token with
    | nil => cases hquote
    | cons c rest =>
      cases hquote
      -- the literal behind the mark ends where the token does
      have hlength : (closingQuote? rest).map (· + 1) = some rest.length := by
        rw [literalEnd?, List.drop_succ_cons, List.drop_succ_cons, List.drop_zero] at hend
        obtain ⟨n, hn, heq⟩ := Option.map_eq_some_iff.mp hend
        simp only [List.length_cons] at heq
        rw [hn, Option.map_some, Option.some.injEq]
        omega
      obtain ⟨body, rfl, hbody⟩ := eq_quoted_of_literalEnd? hlength
      have hinner : (('!' :: '"' :: (body ++ ['"'])).drop 2).dropLast = body := by simp
      rw [hinner] at h ⊢
      -- the engine decides about the source
      rcases hp : Pattern.ofSource (String.ofList (unescapeQuotes body)) with fault | p
      · rw [hp] at h
        exact h.elim
      · exact .pattern hbody hp

/-- A token that is closed and can be read is written so, if shorter definitions are. -/
theorem writtenAs_readPrimary {token : List Char} (hclosed : Closed token)
    (ih : ∀ text, text.length < token.length → Definitions.Readable (readDefinitions text) →
      Definitions.WrittenAs (readDefinitions text) text)
    (h : (readPrimary token).Readable) : (readPrimary token).WrittenAs token := by
  -- the first character decides what the token can be
  cases token with
  | nil =>
    rw [readPrimary] at h
    exact h.elim
  | cons c rest =>
    -- a literal
    by_cases hquote : c = '"'
    · subst hquote
      rw [readPrimary, if_pos rfl] at h ⊢
      split at h
      · next hend =>
        rw [if_pos hend]
        rw [literalEnd?, List.drop_succ_cons, List.drop_zero] at hend
        obtain ⟨body, rfl, hbody⟩ := eq_quoted_of_literalEnd? (by simpa [Nat.add_comm] using hend)
        rw [List.dropLast_concat]
        exact .terminal hbody
      · exact h.elim
    · -- a pattern
      by_cases hmark : c = '!'
      · subst hmark
        rw [readPrimary, if_neg hquote, if_pos rfl] at h ⊢
        exact writtenAs_readPattern h
      · -- a bracket or a name
        rw [readPrimary, if_neg hquote, if_neg hmark] at h ⊢
        rcases hopener : Bracket.ofOpener? c with _ | bracket
        · rw [hopener] at h
          dsimp only at h ⊢
          rcases hbad : reservedCharacter? (c :: rest) with _ | bad
          · exact .name ⟨List.cons_ne_nil _ _, reservedCharacter?_eq_none_iff.mp hbad⟩
          · rw [hbad] at h
            exact h.elim
        · obtain rfl := Bracket.eq_opener_of_ofOpener? hopener
          rw [hopener] at h
          dsimp only at h ⊢
          split at h
          · next hend =>
            -- counting does not see the kind of the closer, but the token is closed
            rw [if_pos hend]
            obtain ⟨inner, rfl, -⟩ := Source.eq_append_closer_of_bracketEnd? hclosed hend
            have hlt : inner.length < (bracket.opener :: (inner ++ [bracket.closer])).length := by
              rw [List.length_cons, List.length_append]
              omega
            rw [List.dropLast_concat] at h ⊢
            exact .bracketed bracket (ih inner hlt h)
          · exact h.elim

/-- Primaries with commas between them. -/
theorem allWrittenAs_of_forall : ∀ {first : List Char} {others : List (List Char)},
    (∀ token ∈ first :: others, (readPrimary token).WrittenAs token) →
    Primary.AllWrittenAs ((first :: others).map readPrimary)
      (first ++ others.flatMap (',' :: ·)) := by
  intro first others
  induction others generalizing first with
  | nil =>
    intro h
    rw [List.flatMap_nil, List.append_nil]
    exact .single (h first List.mem_cons_self)
  | cons next others ih =>
    intro h
    have hrest := ih fun token ht => h token (List.mem_cons_of_mem _ ht)
    exact .cons (h first List.mem_cons_self) hrest

/-- Alternatives with bars between them. -/
theorem writtenAs_of_forall : ∀ {first : List Char} {others : List (List Char)},
    (∀ piece ∈ first :: others, Primary.AllWrittenAs (readAlternative piece) piece) →
    Definitions.WrittenAs ((first :: others).map readAlternative)
      (first ++ others.flatMap ('|' :: ·)) := by
  intro first others
  induction others generalizing first with
  | nil =>
    intro h
    rw [List.flatMap_nil, List.append_nil]
    exact .single (h first List.mem_cons_self)
  | cons next others ih =>
    intro h
    have hrest := ih fun piece hp => h piece (List.mem_cons_of_mem _ hp)
    exact .cons (h first List.mem_cons_self) hrest

/-- An alternative that can be read is written so, if shorter definitions are. -/
theorem allWrittenAs_readAlternative {text : List Char}
    (ih : ∀ text', text'.length < text.length → Definitions.Readable (readDefinitions text') →
      Definitions.WrittenAs (readDefinitions text') text')
    (h : Primary.AllReadable (readAlternative text)) :
    Primary.AllWrittenAs (readAlternative text) text := by
  -- an empty text is no alternative
  by_cases hne : text = []
  · subst hne
    rw [readAlternative] at h
    exact h.1.elim
  · -- where the text cannot be split nothing in it can be read
    rcases hsplit : splitTop ',' text with fault | tokens
    · rw [readAlternative, if_neg (by simpa using hne)] at h
      split at h
      · exact h.1.elim
      · next heq =>
        rw [hsplit] at heq
        cases heq
    · rw [readAlternative_of_splitTop hne hsplit] at h ⊢
      -- each token is read by itself, and no token is longer than the text
      have hreadable := Primary.readable_of_mem h
      have hshort := fun token => @Source.length_le_of_mem_splitTop ',' text token tokens hsplit
      have hsolid := Source.solid_of_mem_splitTop hsplit
      obtain ⟨first, others, rfl, htext⟩ := Source.eq_join_of_splitTop hsplit
      have hall : ∀ token ∈ first :: others, (readPrimary token).WrittenAs token := by
        intro token ht
        refine writtenAs_readPrimary (hsolid token ht).closed (fun text' hlt => ih text' ?_)
          (hreadable _ (List.mem_map_of_mem ht))
        exact Nat.lt_of_lt_of_le hlt (hshort token ht)
      have hwritten := allWrittenAs_of_forall hall
      rwa [← htext] at hwritten

/-- What is read, if all of it can be, is written so: reading loses nothing of a text. -/
theorem Definitions.writtenAs_read {text : List Char}
    (h : Definitions.Readable (readDefinitions text)) :
    Definitions.WrittenAs (readDefinitions text) text := by
  -- induction on the length of the text, which every bracket reduces
  induction hn : text.length using Nat.strongRecOn generalizing text with
  | ind n ih =>
    -- where the text cannot be split nothing in it can be read
    rcases hsplit : splitTop '|' text with fault | pieces
    · rw [readDefinitions] at h
      split at h
      · exact h.1.1.elim
      · next heq =>
        rw [hsplit] at heq
        cases heq
    · rw [readDefinitions_of_splitTop hsplit] at h ⊢
      -- each alternative is read by itself
      have hreadable := Definitions.readable_of_mem h
      have hshort := fun piece => @Source.length_le_of_mem_splitTop '|' text piece pieces hsplit
      obtain ⟨first, others, rfl, htext⟩ := Source.eq_join_of_splitTop hsplit
      have hall : ∀ piece ∈ first :: others,
          Primary.AllWrittenAs (readAlternative piece) piece := by
        intro piece hp
        refine allWrittenAs_readAlternative (fun text' hlt hr => ih _ ?_ hr rfl)
          (hreadable _ (List.mem_map_of_mem hp))
        have := hshort piece hp
        omega
      have hwritten := writtenAs_of_forall hall
      rwa [← htext] at hwritten

mutual

theorem Primary.WrittenAs.readable : ∀ {p text}, Primary.WrittenAs p text → p.Readable
  | _, _, .terminal _ => trivial
  | _, _, .pattern _ _ => trivial
  | _, _, .name _ => trivial
  | _, _, .bracketed _ h => h.readable

theorem Primary.AllWrittenAs.readable : ∀ {ps text}, Primary.AllWrittenAs ps text →
    Primary.AllReadable ps
  | _, _, .single h => ⟨h.readable, trivial⟩
  | _, _, .cons h hrest => ⟨h.readable, hrest.readable⟩

theorem Definitions.WrittenAs.readable : ∀ {d text}, Definitions.WrittenAs d text →
    Definitions.Readable d
  | _, _, .single h => ⟨h.readable, trivial⟩
  | _, _, .cons h hrest => ⟨h.readable, hrest.readable⟩

end

/-- **Reading is right**: the definitions that are written as a text are those read from it, if all
of it can be read. -/
theorem Definitions.writtenAs_iff {d : Definitions} {text : List Char} :
    Definitions.WrittenAs d text ↔ Definitions.Readable d ∧ readDefinitions text = d := by
  constructor
  · intro h
    exact ⟨h.readable, h.read_eq⟩
  · rintro ⟨hreadable, rfl⟩
    exact Definitions.writtenAs_read hreadable

end Ebnf
