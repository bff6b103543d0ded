import Ebnf.Proofs.Definition.Syntax
import Ebnf.Proofs.Source.Cutting

/-!
# Texts put together from pieces

A grammar text is read by three passes, each of which looks at the whole text.  A text that is
printed is put together from pieces: names, literals, single characters, blanks and comments.  What
the passes leave of such a piece does not depend on what follows it, so the statements of a printed
text can be told from its pieces.

## Main definitions

* `Source.Leaves` — what is left of a piece without its comments and blanks.
* `Source.Uncut` — the piece has no semicolon outside literals.
* `IsPlainName` — a name without blanks.

## Main results

* `Source.Leaves.append`, `Source.Leaves.intercalate`, `Source.Uncut.append` — pieces can be put
  together.
* `Definitions.WrittenAs.uncut` — definitions have no semicolon outside literals.
* `Source.Leaves.exists_cutInto` — **the statements of a text put together from pieces.**
-/

namespace Ebnf

open Text (isBlank isBlankText)

namespace Source

/-! ### Comments and blanks -/

/-- Dropping comments goes on behind a place as it does from there. -/
theorem Strips.trans {mode mode' mode'' : Mode} {before between rest out out' : List Char}
    (h : Strips mode before (between ++ rest) out mode')
    (h' : Strips mode' between rest out' mode'') :
    Strips mode (before ++ between) rest (out ++ out') mode'' := by
  generalize hall : between ++ rest = all at h
  induction h with
  | here => exact h'
  | @comment body before _ out _ hbody _ ih =>
    have hrest := Strips.comment hbody (ih h' hall)
    simpa using hrest
  | @char mode mode' c before _ out hno _ ih =>
    subst hall
    rw [List.cons_append, List.cons_append]
    refine .char (fun hplain hc => ?_) (ih h' rfl)
    rw [List.append_assoc]
    exact hno hplain hc

/-- Where the piece stands outside literals and comments, dropping comments comes to its end, and
without its comments and blanks the piece is what is left. -/
def Leaves (piece left : List Char) : Prop :=
  ∀ rest, ∃ out, Strips .plain piece rest out .plain ∧ dropBlanks out = left

namespace Leaves

variable {piece piece' left left' : List Char}

theorem nil : Leaves [] [] := fun rest => ⟨[], .here .plain rest, rfl⟩

/-- Pieces can be put together. -/
theorem append (h : Leaves piece left) (h' : Leaves piece' left') :
    Leaves (piece ++ piece') (left ++ left') := by
  intro rest
  obtain ⟨out, hout, rfl⟩ := h (piece' ++ rest)
  obtain ⟨out', hout', rfl⟩ := h' rest
  refine ⟨out ++ out', hout.trans hout', ?_⟩
  rw [dropBlanks, dropBlanksFrom_append, hout.after_eq]
  rfl

/-- A character that stays, before a piece. -/
theorem cons {c : Char} (h : Leaves [c] [c]) (h' : Leaves piece left) :
    Leaves (c :: piece) (c :: left) :=
  h.append h'

/-- Pieces with separators between them. -/
theorem intercalate {α : Type} {sep sepLeft : List Char} {f left : α → List Char}
    (hsep : Leaves sep sepLeft) : ∀ {l : List α}, (∀ a ∈ l, Leaves (f a) (left a)) →
      Leaves (sep.intercalate (l.map f)) (sepLeft.intercalate (l.map left))
  | [], _ => .nil
  | [a], h => by
    rw [List.map_singleton, List.map_singleton, List.intercalate_singleton,
      List.intercalate_singleton]
    exact h a List.mem_cons_self
  | a :: b :: l, h => by
    have hrest := intercalate hsep fun c hc => h c (List.mem_cons_of_mem a hc)
    have hfirst := h a List.mem_cons_self
    rw [List.map_cons] at hrest
    rw [List.map_cons, List.map_cons, List.map_cons, List.map_cons,
      List.intercalate_cons_cons, List.intercalate_cons_cons]
    exact (hfirst.append hsep).append hrest

/-- Layout leaves nothing. -/
theorem layout (h : IsLayout piece) : Leaves piece [] := by
  intro rest
  obtain ⟨blanks, hblanks, hstrips⟩ := h.strips rest
  exact ⟨blanks, hstrips, dropBlanks_of_forall_isBlank hblanks⟩

/-- Characters of which none is a quote, opens a comment or is blank stay as they are. -/
theorem of_forall (h : ∀ c ∈ piece, c ≠ '"' ∧ c ≠ '(' ∧ isBlank c = false) :
    Leaves piece piece := by
  obtain ⟨hafter, hdrop⟩ := dropBlanks_of_forall fun c hc => ⟨(h c hc).1, (h c hc).2.2⟩
  intro rest
  have hstrips := Strips.of_notMem (fun hmem => (h _ hmem).2.1 rfl) .plain rest
  rw [hafter] at hstrips
  exact ⟨piece, hstrips, hdrop⟩

/-- A character that is no quote, opens no comment and is not blank stays. -/
theorem char {c : Char} (hquote : c ≠ '"') (hopens : c ≠ '(') (hblank : isBlank c = false) :
    Leaves [c] [c] :=
  .of_forall (List.forall_mem_singleton.mpr ⟨hquote, hopens, hblank⟩)

/-- Spaces leave nothing. -/
theorem spaces (n : Nat) : Leaves (List.replicate n ' ') [] :=
  .layout (.blanks fun _ hc => List.eq_of_mem_replicate hc ▸ rfl)

/-- A parenthesis before something that is no star opens no comment. -/
theorem opener {c : Char} (hc : c ≠ '*') (h : Leaves (c :: piece) left) :
    Leaves ('(' :: c :: piece) ('(' :: left) := by
  intro rest
  obtain ⟨out, hout, rfl⟩ := h rest
  have hno : Mode.plain = .plain → '(' = '(' → (c :: piece ++ rest).head? ≠ some '*' := by
    rintro - - heq
    exact hc (Option.some.inj heq)
  refine ⟨'(' :: out, .char hno hout, ?_⟩
  have hkeep : ¬(Mode.plain = .plain ∧ isBlank '(' = true) := by decide
  rw [dropBlanks, dropBlanksFrom_of_not hkeep]
  rfl

end Leaves

/-- Within a literal nothing is dropped. -/
theorem dropBlanksFrom_of_ne {mode : Mode} (hmode : mode ≠ .plain) (c : Char) (rest : List Char) :
    dropBlanksFrom mode (c :: rest) = c :: dropBlanksFrom (mode.next c) rest :=
  dropBlanksFrom_of_not (fun h => hmode h.1) rest

/-- The body of a literal is read to its closing quote, and all of it stays. -/
theorem LiteralBody.strips {body : List Char} (h : LiteralBody body) (rest : List Char) :
    Strips .literal (body ++ ['"']) rest (body ++ ['"']) .plain ∧
      dropBlanksFrom .literal (body ++ ['"']) = body ++ ['"'] := by
  have hliteral : Mode.literal ≠ .plain := by decide
  have hescape : Mode.escape ≠ .plain := by decide
  induction h with
  | nil => exact ⟨.char (fun h => absurd h hliteral) (.here .plain rest), rfl⟩
  | @char c body hquote hbackslash _ ih =>
    have hnext : Mode.next .literal c = .literal := by
      rw [Mode.next, if_neg hquote, if_neg hbackslash]
    obtain ⟨hstrips, hdrop⟩ := ih
    rw [List.cons_append, dropBlanksFrom_of_ne hliteral, hnext, hdrop]
    exact ⟨.char (fun h => absurd h hliteral) (by rwa [hnext]), rfl⟩
  | @escaped c body _ ih =>
    have hnext : Mode.next .literal '\\' = .escape := rfl
    obtain ⟨hstrips, hdrop⟩ := ih
    rw [List.cons_append, List.cons_append, dropBlanksFrom_of_ne hliteral, hnext,
      dropBlanksFrom_of_ne hescape, Mode.next_escape, hdrop]
    exact ⟨.char (fun h => absurd h hliteral)
      (.char (fun h => absurd h hescape) hstrips), rfl⟩

/-- A literal is read to its end, and all of it stays. -/
theorem LiteralBody.strips_quoted {body : List Char} (h : LiteralBody body) (rest : List Char) :
    Strips .plain ('"' :: (body ++ ['"'])) rest ('"' :: (body ++ ['"'])) .plain ∧
      dropBlanks ('"' :: (body ++ ['"'])) = '"' :: (body ++ ['"']) := by
  obtain ⟨hstrips, hdrop⟩ := h.strips rest
  refine ⟨.char (fun _ hc => absurd hc (by decide)) hstrips, ?_⟩
  rw [dropBlanks, dropBlanksFrom_of_not (by decide), Mode.next_plain_quote, hdrop]

theorem LiteralBody.leaves {body : List Char} (h : LiteralBody body) :
    Leaves ('"' :: (body ++ ['"'])) ('"' :: (body ++ ['"'])) :=
  fun rest => ⟨_, h.strips_quoted rest⟩

/-! ### Semicolons -/

/-- Cutting into statements goes over the piece, which is part of a statement as a whole. -/
def Uncut (piece : List Char) : Prop :=
  Mode.after .plain piece = .plain ∧ ∀ rest, cutPlainFrom ';' .plain (piece ++ rest) =
    (piece ++ (cutPlainFrom ';' .plain rest).1, (cutPlainFrom ';' .plain rest).2)

namespace Uncut

variable {piece piece' : List Char}

theorem nil : Uncut [] := ⟨rfl, fun _ => rfl⟩

/-- Pieces can be put together. -/
theorem append (h : Uncut piece) (h' : Uncut piece') : Uncut (piece ++ piece') := by
  refine ⟨?_, fun rest => ?_⟩
  · rw [Mode.after_append, h.1, h'.1]
  · rw [List.append_assoc, h.2, h'.2]
    simp

theorem char {c : Char} (hquote : c ≠ '"') (hsemicolon : c ≠ ';') : Uncut [c] := by
  refine ⟨Mode.next_plain hquote, fun rest => ?_⟩
  rw [List.singleton_append, cutPlainFrom, if_neg (fun h => hsemicolon h.2.1),
    Mode.next_plain hquote]
  rfl

theorem of_forall (h : ∀ c ∈ piece, c ≠ '"' ∧ c ≠ ';') : Uncut piece := by
  induction piece with
  | nil => exact .nil
  | cons c piece ih =>
    obtain ⟨hquote, hsemicolon⟩ := h c List.mem_cons_self
    exact (char hquote hsemicolon).append (ih fun d hd => h d (List.mem_cons_of_mem _ hd))

end Uncut

/-- A step of cutting within a literal. -/
theorem cutPlainFrom_of_ne {mode : Mode} (hmode : mode ≠ .plain) (c : Char) (rest : List Char) :
    cutPlainFrom ';' mode (c :: rest) =
      (c :: (cutPlainFrom ';' (mode.next c) rest).1, (cutPlainFrom ';' (mode.next c) rest).2) := by
  rw [cutPlainFrom, if_neg (fun h => hmode h.1)]

theorem LiteralBody.cutPlainFrom_eq {body : List Char} (h : LiteralBody body) (rest : List Char) :
    cutPlainFrom ';' .literal (body ++ '"' :: rest) =
      (body ++ '"' :: (cutPlainFrom ';' .plain rest).1, (cutPlainFrom ';' .plain rest).2) := by
  have hliteral : Mode.literal ≠ .plain := by decide
  have hescape : Mode.escape ≠ .plain := by decide
  induction h with
  | nil => exact cutPlainFrom_of_ne hliteral '"' rest
  | @char c body hquote hbackslash _ ih =>
    have hnext : Mode.next .literal c = .literal := by
      rw [Mode.next, if_neg hquote, if_neg hbackslash]
    rw [List.cons_append, cutPlainFrom_of_ne hliteral, hnext, ih]
    rfl
  | @escaped c body _ ih =>
    have hnext : Mode.next .literal '\\' = .escape := rfl
    rw [List.cons_append, List.cons_append, cutPlainFrom_of_ne hliteral, hnext,
      cutPlainFrom_of_ne hescape, Mode.next_escape, ih]
    rfl

/-- A literal is never cut, whatever semicolons stand in it. -/
theorem LiteralBody.uncut {body : List Char} (h : LiteralBody body) :
    Uncut ('"' :: (body ++ ['"'])) := by
  refine ⟨?_, fun rest => ?_⟩
  · have hstrips := (h.strips []).1.after_eq
    rw [Mode.after_cons, Mode.next_plain_quote, hstrips]
  · rw [List.cons_append, List.append_assoc, List.singleton_append, cutPlainFrom,
      if_neg (by simp), Mode.next_plain_quote, h.cutPlainFrom_eq]
    simp

/-- Pieces that end with semicolons are the first statements of a text. -/
theorem cutPlain_flatMap_append (last : List Char) : ∀ {pieces : List (List Char)},
    (∀ piece ∈ pieces, Uncut piece) →
    cutPlain ';' (pieces.flatMap (· ++ [';']) ++ last) = pieces ++ cutPlain ';' last := by
  intro pieces
  induction pieces with
  | nil => exact fun _ => rfl
  | cons piece pieces ih =>
    intro h
    have hrest := ih fun p hp => h p (List.mem_cons_of_mem _ hp)
    have hcut : ∀ rest, cutPlainFrom ';' .plain (';' :: rest)
        = ([], (cutPlainFrom ';' .plain rest).1 :: (cutPlainFrom ';' .plain rest).2) := by
      intro rest
      rw [cutPlainFrom, if_pos (by decide)]
    rw [cutPlain] at hrest ⊢
    dsimp only at hrest ⊢
    rw [List.flatMap_cons, List.append_assoc, List.append_assoc, (h piece List.mem_cons_self).2,
      List.singleton_append, hcut]
    dsimp only
    rw [hrest, List.append_nil]
    rfl

theorem cutPlain_flatMap {pieces : List (List Char)} (h : ∀ piece ∈ pieces, Uncut piece) :
    cutPlain ';' (pieces.flatMap (· ++ [';'])) = pieces ++ [[]] := by
  have hcut := cutPlain_flatMap_append [] h
  rwa [List.append_nil] at hcut

/-- **The statements of a text put together from pieces.**  If without its comments and blanks the
text is a list of statements with semicolons behind them, it is cut into those. -/
theorem Leaves.exists_cutInto {text : List Char} {pieces : List (List Char)}
    (h : Leaves text (pieces.flatMap (· ++ [';']))) (hpieces : ∀ piece ∈ pieces, Uncut piece)
    (hne : ∀ piece ∈ pieces, piece ≠ []) :
    ∃ raws, CutInto text raws ∧ raws.map dropBlanks = pieces := by
  obtain ⟨out, hout, hleft⟩ := h []
  refine ⟨_, ⟨out, hout, rfl⟩, ?_⟩
  rw [map_dropBlanks_filter, ← cutPlain_dropBlanks (by decide), hleft, cutPlain_flatMap hpieces,
    List.filter_append, List.filter_eq_self.mpr (fun p hp => by simpa using hne p hp)]
  simp

end Source

open Source (Leaves Uncut LiteralBody)

/-! ### Names -/

/-- A name without blanks, which stays as it is when layout is dropped. -/
structure IsPlainName (name : List Char) : Prop where
  isName : IsName name
  notBlank : ∀ c ∈ name, isBlank c = false

/-- The reserved characters are none that a name has. -/
theorem IsName.ne_of_mem {name : List Char} (h : IsName name) {c d : Char} (hc : c ∈ name)
    (hd : d ∈ reservedCharacters) : c ≠ d := by
  rintro rfl
  exact h.2 c hc hd

theorem IsPlainName.leaves {name : List Char} (h : IsPlainName name) : Leaves name name :=
  .of_forall fun c hc => ⟨h.isName.ne_of_mem hc (by decide), h.isName.ne_of_mem hc (by decide),
    h.notBlank c hc⟩

theorem IsName.uncut {name : List Char} (h : IsName name) : Uncut name :=
  .of_forall fun _ hc => ⟨h.ne_of_mem hc (by decide), h.ne_of_mem hc (by decide)⟩

variable [Pattern.Engine]

/-! ### Definitions -/

mutual

theorem Primary.WrittenAs.uncut : ∀ {p text}, Primary.WrittenAs p text → Uncut text
  | _, _, .terminal h => h.uncut
  | _, _, .pattern h _ => (Uncut.char (by decide) (by decide)).append h.uncut
  | _, _, .name h => h.uncut
  | _, _, .bracketed bracket h => by
    have hopener : Uncut [bracket.opener] := by
      cases bracket <;> exact .char (by decide) (by decide)
    have hcloser : Uncut [bracket.closer] := by
      cases bracket <;> exact .char (by decide) (by decide)
    exact hopener.append (h.uncut.append hcloser)

theorem Primary.AllWrittenAs.uncut : ∀ {ps text}, Primary.AllWrittenAs ps text → Uncut text
  | _, _, .single h => h.uncut
  | _, _, .cons h hrest => by
    have hcomma : Uncut [','] := .char (by decide) (by decide)
    exact h.uncut.append (hcomma.append hrest.uncut)

/-- Definitions have no semicolon outside literals, so a statement is never cut in them. -/
theorem Definitions.WrittenAs.uncut : ∀ {d text}, Definitions.WrittenAs d text → Uncut text
  | _, _, .single h => h.uncut
  | _, _, .cons h hrest => by
    have hbar : Uncut ['|'] := .char (by decide) (by decide)
    exact h.uncut.append (hbar.append hrest.uncut)

end

end Ebnf
