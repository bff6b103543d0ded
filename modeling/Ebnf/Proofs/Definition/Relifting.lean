import Ebnf.Proofs.Definition.Replacing

/-!
# Lifting what stands in a bracket

What is lifted out of a bracket stands in one piece among what is lifted out of the definitions
around it, and it is what would be lifted if the text of the bracket were a statement of its own.
For the names of the rules are made of the name of the bracket's rule, and nothing around the
bracket takes part in them; only the owner of the rules is another one.

## Main definitions

* `Rule.ownedBy`, `Lifted.ownedBy` — rules, and what is lifted, with another owner.
* `Definitions.Tight` — definitions that can be read back from their text, which has no blanks.

## Main results

* `Definitions.lifted_declare` — a name no longer than that of the rule may be declared or not.
* `Definitions.Tight.of_mem_brackets` — what stands in a bracket is tight.
* `Definitions.Tight.exists_bracket` — **the rules of a bracket stand in one piece.**
-/

namespace Ebnf

open Builder (liftedName)
open Source (dropBlanks dropBlanksFrom Mode)

variable [Pattern.Engine]

/-! ### Other owners and names -/

/-- The rule with another owner. Nothing else of it depends on the owner. -/
def Rule.ownedBy (owner : String) (r : Rule) : Rule := { r with owner := some owner }

/-- What is lifted, with another owner of the rules. -/
def Lifted.ownedBy {α : Type} (owner : String) (l : Lifted α) : Lifted α :=
  { l with rules := l.rules.map (Rule.ownedBy owner) }

/-- A name that is not longer than that of the rule is none of a bracket in the rule. -/
theorem nextNumber_cons {declared : List String} {name parent : String}
    (h : name.length ≤ parent.length) (k : Nat) :
    nextNumber (name :: declared) parent k = nextNumber declared parent k := by
  refine Builder.freshNumber_congr rfl fun j _ => ?_
  have hne : liftedName parent j ≠ name := by
    rintro rfl
    exact absurd h (Nat.not_le_of_lt (Builder.length_lt_liftedName parent j))
  rw [Bool.eq_iff_iff, Builder.isFree_eq_true_iff, Builder.isFree_eq_true_iff]
  exact and_congr_right fun _ => not_congr (List.mem_cons.trans (or_iff_right hne))

section

variable {declared : List String} {owner owner' name : String}

mutual

theorem Primary.lifted_declare : ∀ (p : Primary) {parent : String} (k : Nat),
    name.length ≤ parent.length →
    p.lifted (nextNumber (name :: declared)) owner' parent k
      = (p.lifted (nextNumber declared) owner parent k).ownedBy owner'
  | .terminal _, _, _, _ | .pattern _, _, _, _ | .name _, _, _, _ | .unreadable _, _, _, _ => by
    rw [Primary.lifted, Primary.lifted]
    rfl
  | .bracketed _ inner, parent, k, h => by
    have hlength := Builder.length_lt_liftedName parent (nextNumber declared parent k)
    have hinner := Definitions.lifted_declare inner 0 (Nat.le_of_lt (Nat.lt_of_le_of_lt h hlength))
    rw [Primary.lifted, Primary.lifted, nextNumber_cons h, hinner]
    rfl

theorem Primary.allLifted_declare : ∀ (ps : List Primary) {parent : String} (k : Nat),
    name.length ≤ parent.length →
    Primary.allLifted (nextNumber (name :: declared)) owner' parent k ps
      = (Primary.allLifted (nextNumber declared) owner parent k ps).ownedBy owner'
  | [], _, _, _ => by
    rw [Primary.allLifted, Primary.allLifted]
    rfl
  | p :: rest, parent, k, h => by
    have hhead := Primary.lifted_declare p k h
    have htail := Primary.allLifted_declare rest
      (p.lifted (nextNumber declared) owner parent k).last h
    rw [Primary.allLifted, Primary.allLifted, hhead]
    dsimp only [Lifted.ownedBy] at htail ⊢
    rw [htail, List.map_append]

/-- Where the rules are lifted out of a rule whose name is as long as a name or longer, it makes no
difference whether the name is declared. -/
theorem Definitions.lifted_declare : ∀ (d : List (List Primary)) {parent : String} (k : Nat),
    name.length ≤ parent.length →
    Definitions.lifted (nextNumber (name :: declared)) owner' parent k d
      = (Definitions.lifted (nextNumber declared) owner parent k d).ownedBy owner'
  | [], _, _, _ => by
    rw [Definitions.lifted, Definitions.lifted]
    rfl
  | alt :: rest, parent, k, h => by
    have hhead := Primary.allLifted_declare alt k h
    have htail := Definitions.lifted_declare rest
      (Primary.allLifted (nextNumber declared) owner parent k alt).last h
    rw [Definitions.lifted, Definitions.lifted, hhead]
    dsimp only [Lifted.ownedBy] at htail ⊢
    rw [htail, List.map_append]

end

end

/-! ### Texts without blanks -/

omit [Pattern.Engine] in
/-- A piece of a text stands behind pieces without an open literal if no piece has one. -/
theorem Source.exists_intercalate_eq {sep : Char} (hsep : sep ≠ '"') {piece : List Char} :
    ∀ {pieces : List (List Char)}, (∀ p ∈ pieces, Mode.after .plain p = .plain) → piece ∈ pieces →
      ∃ before after, [sep].intercalate pieces = before ++ (piece ++ after) ∧
        Mode.after .plain before = .plain
  | [p], _, hp => by
    obtain rfl := List.mem_singleton.mp hp
    exact ⟨[], [], by rw [List.intercalate_singleton, List.append_nil]; rfl, rfl⟩
  | p :: q :: rest, h, hp => by
    rw [List.intercalate_cons_cons]
    rcases List.mem_cons.mp hp with rfl | hp
    · exact ⟨[], [sep] ++ [sep].intercalate (q :: rest), by simp, rfl⟩
    · obtain ⟨before, after, heq, hbefore⟩ :=
        exists_intercalate_eq hsep (fun p' hp' => h p' (List.mem_cons_of_mem p hp')) hp
      refine ⟨p ++ [sep] ++ before, after, by rw [heq]; simp only [List.append_assoc], ?_⟩
      rw [Mode.after_append, Mode.after_append, h p List.mem_cons_self, Mode.after_cons,
        Mode.next_plain hsep]
      exact hbefore

omit [Pattern.Engine] in
/-- Where a text put together from pieces has no blanks, no piece has. -/
theorem Source.dropBlanks_of_mem_pieces {sep : Char} (hsep : sep ≠ '"') {pieces : List (List Char)}
    (hpieces : ∀ p ∈ pieces, Mode.after .plain p = .plain)
    (h : dropBlanks ([sep].intercalate pieces) = [sep].intercalate pieces) {piece : List Char}
    (hp : piece ∈ pieces) : dropBlanks piece = piece := by
  obtain ⟨before, after, heq, hbefore⟩ := exists_intercalate_eq hsep hpieces hp
  rw [heq] at h
  exact dropBlanks_middle h hbefore

/-- The primaries of an alternative without blanks have none. -/
theorem Primary.dropBlanks_chars_of_mem {ps : List Primary} (h : Primary.AllWritable ps)
    (hdrop : dropBlanks (Primary.listChars ps) = Primary.listChars ps) {p : Primary}
    (hp : p ∈ ps) : dropBlanks p.chars = p.chars := by
  have hpieces : ∀ piece ∈ ps.map Primary.chars, Mode.after .plain piece = .plain := by
    intro piece hpiece
    obtain ⟨p', hp', rfl⟩ := List.mem_map.mp hpiece
    exact ((h.writable_of_mem p' hp').solid (Or.inl rfl)).closed.after_eq
  rw [Primary.listChars_eq] at hdrop
  exact Source.dropBlanks_of_mem_pieces (by decide) hpieces hdrop (List.mem_map_of_mem hp)

/-- The alternatives of definitions without blanks have none. -/
theorem Definitions.dropBlanks_listChars_of_mem {d : Definitions} (h : Definitions.Writable d)
    (hdrop : dropBlanks (Definitions.chars d) = Definitions.chars d) {alt : List Primary}
    (halt : alt ∈ d) : dropBlanks (Primary.listChars alt) = Primary.listChars alt := by
  have hpieces : ∀ piece ∈ d.map Primary.listChars, Mode.after .plain piece = .plain := by
    intro piece hpiece
    obtain ⟨alt', halt', rfl⟩ := List.mem_map.mp hpiece
    exact (h.allWritable_of_mem alt' halt').solid.closed.after_eq
  rw [Definitions.chars_eq] at hdrop
  exact Source.dropBlanks_of_mem_pieces (by decide) hpieces hdrop (List.mem_map_of_mem halt)

omit [Pattern.Engine] in
theorem infix_flatMap {α β : Type} (f : α → List β) {l : List α} {a : α} (h : a ∈ l) :
    f a <:+: l.flatMap f := by
  rw [List.flatMap_def]
  exact List.infix_of_mem_flatten (List.mem_map_of_mem h)

namespace Definitions

/-- The definitions can be read back from their text, and this has no blanks but in literals. -/
structure Tight (d : Definitions) : Prop where
  writable : Writable d
  dropBlanks_eq : dropBlanks (chars d) = chars d

/-- What stands in a bracket of tight definitions is tight, so that it can be read back alone. -/
theorem Tight.of_mem_brackets {d inner : Definitions} (h : Tight d) {bracket : Bracket}
    (hmem : (bracket, inner) ∈ brackets d) : Tight inner := by
  obtain ⟨p, hp, hbracket⟩ := List.mem_filterMap.mp hmem
  obtain ⟨alt, halt, hp⟩ := List.mem_flatten.mp hp
  cases p <;> cases hbracket
  -- the text of the bracket stands in that of its alternative, and this in that of the definitions
  have halternative := h.writable.allWritable_of_mem alt halt
  have hwritable := halternative.writable_of_mem _ hp
  have hdrop := Primary.dropBlanks_chars_of_mem halternative
    (dropBlanks_listChars_of_mem h.writable h.dropBlanks_eq halt) hp
  rw [Primary.chars] at hdrop
  have hopener : Mode.after .plain [bracket.opener] = .plain := Source.next_opener bracket
  exact ⟨Primary.writable_bracketed.mp hwritable,
    @Source.dropBlanks_middle [bracket.opener] _ _ hdrop hopener⟩

/-- **The rules of a bracket stand in one piece** among the rules lifted out of definitions, and
every one of these is the first of such a piece. -/
theorem Tight.exists_bracket {declared : List String} {owner parent : String}
    {d : Definitions} (h : Tight d) {r : Rule}
    (hr : r ∈ (lifted (nextNumber declared) owner parent 0 d).rules) :
    ∃ bracket inner, Tight inner ∧
      let below := lifted (nextNumber declared) owner r.name 0 inner
      r = Rule.ofBracket owner r.name bracket inner below.left ∧
        (r :: below.rules) <:+: (lifted (nextNumber declared) owner parent 0 d).rules := by
  -- induction on the size of the definitions, since a bracket's are part of those around it
  induction hn : sizeOf d using Nat.strongRecOn generalizing d parent with
  | ind n ih =>
    rw [rules_lifted] at hr ⊢
    obtain ⟨⟨⟨bracket, inner⟩, j⟩, hmem, hr⟩ := List.mem_flatMap.mp hr
    have hbracket := List.mem_of_getElem? (List.mem_zipIdx_iff_getElem?.mp hmem)
    have hinner := h.of_mem_brackets hbracket
    have hpiece := infix_flatMap (fun x : (Bracket × Definitions) × Nat =>
      bracketRules declared owner (bracketName declared parent x.2) x.1.1 x.1.2) hmem
    -- the rule is that of the bracket itself, or stands among those lifted out of it
    rcases List.mem_cons.mp hr with rfl | hr
    · exact ⟨bracket, inner, hinner, rfl, hpiece⟩
    · obtain ⟨bracket', inner', htight, heq, hbelow⟩ :=
        ih _ (hn ▸ sizeOf_lt_of_mem_brackets hbracket) hinner hr rfl
      exact ⟨bracket', inner', htight, heq,
        (hbelow.trans (List.suffix_cons _ _).isInfix).trans hpiece⟩

end Definitions

end Ebnf
