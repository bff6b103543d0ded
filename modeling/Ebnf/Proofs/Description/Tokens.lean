import Ebnf.Proofs.Description.Printing

/-!
# Terminals and patterns as tokens

A terminal is written with two escapes and read with five, and a pattern is written and read with
one.  Both come out right because of what can stand in a literal: an escape is never torn apart, and
no quote stands in it without a backslash of its own.  What is written for a terminal is a token
that nothing cuts, splits or shortens on its way to being read, and a pattern is written as the
token from which it was read.

## Main definitions

* `IsToken` — a text that comes whole to where its primary is read.

## Main results

* `Source.LiteralBody.isToken`, `Primary.WrittenAs.isToken_pattern` — literals and patterns are
  tokens.
* `writtenAs_of_read_pattern` — what is read as a pattern is a literal with a mark before it.
* `Atom.read_render` — **terminals and patterns are read back from their written form.**
-/

namespace Ebnf

open Source (dropBlanks literalEnd? LiteralBody splitTop stripComments)

section AnyEngine

variable [Pattern.Engine]

/-! ### Tokens -/

/-- The text comes whole to where its primary is read: it is one piece and one token of it, and it
has neither blanks nor comments outside literals. -/
structure IsToken (token : List Char) : Prop where
  split : ∀ sep ∈ [',', '|'], splitTop sep token = .ok [token]
  blanks : dropBlanks token = token
  comments : stripComments token = .ok token

/-- The written form of a primary is not split. -/
theorem Primary.WrittenAs.splitTop_eq {p : Primary} {text : List Char} (h : p.WrittenAs text) :
    ∀ sep ∈ [',', '|'], splitTop sep text = .ok [text] := by
  intro sep hsep
  have hsep : sep = ',' ∨ sep = '|' := by simpa using hsep
  exact Source.splitTop_of_solid (h.solid hsep)

/-- A literal is one token, whatever stands in it. -/
theorem Source.LiteralBody.isToken {body : List Char} (h : LiteralBody body) :
    IsToken ('"' :: (body ++ ['"'])) := by
  obtain ⟨hstrips, hdrop⟩ := h.strips_quoted []
  exact ⟨(Primary.WrittenAs.terminal h).splitTop_eq, hdrop, hstrips.stripComments_eq⟩

/-- A mark before the literal changes nothing. -/
theorem Primary.WrittenAs.isToken_pattern {p : Pattern} {text : List Char}
    (h : (Primary.pattern p).WrittenAs text) : IsToken text := by
  have hsplit := h.splitTop_eq
  cases h with
  | @pattern body p hbody hp =>
    obtain ⟨hquoted, hdrop⟩ := hbody.strips_quoted []
    have hstrips : Source.Strips .plain ('!' :: '"' :: (body ++ ['"'])) []
        ('!' :: '"' :: (body ++ ['"'])) .plain :=
      .char (fun _ hc => absurd hc (by decide)) hquoted
    refine ⟨hsplit, ?_, hstrips.stripComments_eq⟩
    rw [dropBlanks, Source.dropBlanksFrom_of_not (by decide)]
    exact congrArg ('!' :: ·) hdrop

/-! ### Reading -/

/-- What is read as a pattern is written so: the mark, and a literal with the source in it. -/
theorem writtenAs_of_read_pattern {token : List Char} {p : Pattern}
    (h : readPrimary token = .pattern p) : (Primary.pattern p).WrittenAs token := by
  cases token with
  | nil =>
    rw [readPrimary] at h
    cases h
  | cons c rest =>
    rw [readPrimary] at h
    split at h
    · split at h <;> cases h
    · split at h
      · next hmark =>
        subst hmark
        have hwritten := @writtenAs_readPattern _ rest (by rw [h]; trivial)
        rwa [h] at hwritten
      · split at h <;> split at h <;> cases h

section Lift

variable {owner statement parent : String} {b b' : Builder}

/-- Only a pattern leaves a pattern. -/
theorem Primary.eq_pattern_of_run_lift {primary : Primary} {p : Pattern}
    (h : (primary.lift owner statement parent).run b = (.ok (.pattern p), b')) :
    primary = .pattern p ∧ b' = b := by
  cases primary with
  | terminal body =>
    rw [Primary.lift, Build.run_pure] at h
    cases h
  | pattern p' =>
    rw [Primary.lift, Build.run_pure] at h
    cases h
    exact ⟨rfl, rfl⟩
  | name name =>
    rw [Primary.lift, Build.run_pure] at h
    cases h
  | unreadable why =>
    rw [Primary.lift, Build.run_throw] at h
    cases h
  | bracketed bracket inner =>
    -- the last step of a bracket is to leave a reference to its rule
    rw [Primary.lift] at h
    obtain ⟨_, _, -, h⟩ := Build.run_bind_eq_ok h
    obtain ⟨_, _, -, h⟩ := Build.run_bind_eq_ok h
    obtain ⟨_, _, -, h⟩ := Build.run_bind_eq_ok h
    obtain ⟨_, _, -, h⟩ := Build.run_bind_eq_ok h
    cases h

/-- **Terminals and patterns are read back from their written form.**  The written form of any
terminal is one token, its literal ends where it does, and it is read as that terminal.  A pattern
is written as the token from which it was read, so that it is read back as well.  Reading either
does nothing to the builder. -/
theorem Atom.read_render (owner statement parent : String) (b : Builder) :
    (∀ s : String,
      IsToken (Atom.terminal s).render.toList ∧
      literalEnd? (Atom.terminal s).render.toList 0
        = some ((Atom.terminal s).render.toList.length - 1) ∧
      ((readPrimary (Atom.terminal s).render.toList).lift owner statement parent).run b
        = (.ok (.terminal s), b)) ∧
    ∀ (token : List Char) (p : Pattern) (b' : Builder),
      ((readPrimary token).lift owner statement parent).run b = (.ok (.pattern p), b') →
      (Atom.pattern p).render = String.ofList token ∧
      IsToken token ∧ b' = b ∧
      ((readPrimary (Atom.pattern p).render.toList).lift owner statement parent).run b
        = (.ok (.pattern p), b) := by
  refine ⟨fun s => ?_, fun token p b' h => ?_⟩
  · -- a terminal is written as a literal with its text escaped
    have hbody : LiteralBody (Source.escape s.toList) := Source.literalBody_escape _
    have hread := (Primary.WrittenAs.terminal hbody).read_eq
    rw [Atom.render, String.toList_ofList]
    refine ⟨hbody.isToken, literalEnd?_quoted hbody, ?_⟩
    rw [hread, Primary.lift, Source.unescape_escape, String.ofList_toList, Build.run_pure]
  · -- a pattern is written with the characters of the token that it was read from
    obtain ⟨hread, rfl⟩ := Primary.eq_pattern_of_run_lift h
    have hwritten := writtenAs_of_read_pattern hread
    have hrender : (Atom.pattern p).render.toList = token := by
      rw [Atom.toList_render, Atom.written]
      cases hwritten with
      | pattern hbody hp => exact chars_pattern hbody hp
    refine ⟨?_, hwritten.isToken_pattern, rfl, ?_⟩
    · rw [← hrender, String.ofList_toList]
    · rw [hrender, h]

end Lift

end AnyEngine

attribute [local instance] Pattern.Engine.verbatim

/-- A terminal that ends with a backslash, and a pattern with a quote in it. -/
theorem Atom.read_render_escapes :
    ((readPrimary ['"', 'n', '\\', '\\', '"']).lift "" "" "").run (Builder.empty [])
      = (.ok (.terminal "n\\"), Builder.empty []) ∧
    ∃ p, ((readPrimary ['!', '"', '\\', '"', '"']).lift "" "" "").run (Builder.empty [])
        = (.ok (.pattern p), Builder.empty []) ∧
      (Atom.pattern p).render = String.ofList ['!', '"', '\\', '"', '"'] := by
  obtain ⟨hterminal, hpattern⟩ := Atom.read_render "" "" "" (Builder.empty [])
  refine ⟨(hterminal "n\\").2.2, ?_⟩
  have hp : Pattern.ofSource (String.ofList ['"']) = .ok _ := Pattern.ofSource_of_compile rfl
  have hbody : LiteralBody ['\\', '"'] := .escaped '"' .nil
  have hread := (Primary.WrittenAs.pattern hbody hp).read_eq
  have hrun : ((readPrimary ['!', '"', '\\', '"', '"']).lift "" "" "").run (Builder.empty [])
      = (.ok (.pattern _), Builder.empty []) :=
    (congrArg (fun q => (q.lift "" "" "").run (Builder.empty [])) hread).trans (by
      rw [Primary.lift, Build.run_pure])
  exact ⟨_, hrun, (hpattern _ _ _ hrun).1⟩

end Ebnf
