import LuaBindings.Proofs.Literal.Escapes
import LuaBindings.Proofs.Token.Lookahead
import LuaBindings.Proofs.TokenTree.Placement

/-!
# Reading back literals

A value that is written as a literal is one token of its text, and the value is read off
that token again. This holds of quoted strings, where some characters are escaped, and of
raw strings with enough hashes around them (`decode_literal`).
-/

set_option autoImplicit false

namespace LuaBindings

def Token.whole (kind : TokenKind) (text : String) : Token :=
  ⟨kind, text, .first, Location.first.after text.toList⟩

def IsToken (kind : TokenKind) (text : String) : Prop :=
  TokenTree.ofSource text = .ok [.token (.whole kind text)]

theorem isToken_of_next? {kind : TokenKind} {text : String}
    (h : Terminal.next? text.toList = some (kind, text.toList, []))
    (htrivia : kind.isTrivia = false) (hdelimiter : kind.isDelimiter = false) :
    IsToken kind text := by
  have hstep := NestingScan.step_of_next? h fun hblock => by
    rw [hblock] at htrivia
    cases htrivia
  have hend : NestingScan.step [] = .stuck := rfl
  have houtcome : (NestingScan.ofText text.toList).outcome = .ok [.whole kind text] := by
    rw [NestingScan.ofText, NestingScan.scanFrom_token hstep, NestingScan.scanFrom_stuck hend,
      String.ofList_toList]
    simp [NestingScan.outcome, NestingScan.significant, htrivia, Token.whole]
  have hformed : TokenTree.Formed [.token (.whole kind text)] := .token hdelimiter .nil
  have htrees := TokenTree.ofTokens_eq_ok_iff.2 ⟨hformed, rfl⟩
  rw [TokenTree.flatten_token_cons, TokenTree.flatten_nil] at htrees
  rw [IsToken, TokenTree.ofSource, TokenTree.ofText_eq, houtcome]
  dsimp only
  rw [htrees]

namespace Terminal

/-! ### Where a literal closes -/

theorem throughQuote_of_closesFirmly {body : List Char} (h : closesFirmly body = true) :
    throughQuote body = some (body, []) := by
  fun_induction closesFirmly body with
  | case1 => cases h
  | case2 rest =>
    rw [List.isEmpty_iff.1 h]
    rfl
  | case3 => cases h
  | case4 c rest ih => simp [throughQuote, ih h]
  | case5 c rest hquote hlast hslash ih =>
    have hc : c ≠ '\\' := by
      rintro rfl
      cases rest with
      | nil => exact hlast rfl rfl
      | cons d rest => exact hslash d rest rfl rfl
    rw [throughQuote_plain hquote hc, ih h]
    rfl

theorem closesFirmly_plain {c : Char} (hquote : c ≠ '"') (hslash : c ≠ '\\') (rest : List Char) :
    closesFirmly (c :: rest) = closesFirmly rest := by
  rw [closesFirmly]
  · exact hquote
  · exact fun h _ => hslash h
  · exact fun _ _ h _ => hslash h

theorem closesFirmly_escaped (c : Char) (rest : List Char) :
    closesFirmly ('\\' :: c :: rest) = closesFirmly rest := by
  rw [closesFirmly]

/-- No quote in the pieces closes a literal that they stand in. -/
theorem closesFirmly_flatMap {α : Type} {f : α → List Char} {pieces : List α}
    (h : ∀ a ∈ pieces, ∀ rest, closesFirmly (f a ++ rest) = closesFirmly rest)
    (rest : List Char) : closesFirmly (pieces.flatMap f ++ rest) = closesFirmly rest := by
  induction pieces with
  | nil => rfl
  | cons a pieces ih =>
    obtain ⟨hfirst, hrest⟩ := List.forall_mem_cons.1 h
    rw [List.flatMap_cons, List.append_assoc, hfirst, ih hrest]

/-- The first quote with the hashes behind it closes the literal. -/
theorem throughFence_append {hashes content : List Char} (hhashes : ∀ c ∈ hashes, c = '#')
    (h : ¬('"' :: hashes <:+: content)) :
    throughFence hashes (content ++ '"' :: hashes) = some (content ++ '"' :: hashes, []) := by
  induction content with
  | nil => simp [throughFence]
  | cons c content ih =>
    have hopen : ¬(c = '"' ∧ hashes <+: content ++ '"' :: hashes) := by
      rintro ⟨rfl, hfence⟩
      by_cases hlength : hashes.length ≤ content.length
      · have hinside : hashes <+: content :=
          List.prefix_of_prefix_length_le hfence (List.prefix_append _ _) hlength
        exact h ((List.prefix_cons_inj _).2 hinside).isInfix
      · -- The quote behind the content would be one of the hashes.
        have hquote : content ++ ['"'] <+: hashes := by
          refine List.prefix_of_prefix_length_le ?_ hfence (by simp; omega)
          exact List.prefix_append_right_inj content |>.2 (List.prefix_append ['"'] hashes)
        exact absurd (hhashes '"' (hquote.subset (by simp))) (by decide)
    have hcontent : ¬('"' :: hashes <:+: content) := fun hoccurs =>
      h (hoccurs.trans (List.suffix_cons c content).isInfix)
    rw [List.cons_append, throughFence, if_neg hopen, ih hcontent]
    rfl

end Terminal

namespace Literal

open Terminal (closesFirmly)

/-! ### Quoted strings -/

/-- A text in quotes that closes at its last quote only is a string token. -/
theorem isToken_quoted {content : List Char} (h : closesFirmly (content ++ ['"']) = true) :
    IsToken .string (String.ofList ('"' :: (content ++ ['"']))) := by
  refine isToken_of_next? ?_ rfl rfl
  rw [String.toList_ofList]
  exact Terminal.next?_of_string
    (@Terminal.prepend_append ['"'] _ _ _ (Terminal.throughQuote_of_closesFirmly h))

theorem decode_quoted (content : List Char) :
    decode (String.ofList ('"' :: (content ++ ['"']))) =
      (unescape content).map String.ofList := by
  rw [decode, String.toList_ofList]
  simp [strip]

theorem quote_eq (value : String) :
    quote value = String.ofList ('"' :: (value.toList.flatMap quoteChar ++ ['"'])) := by
  rw [quote, ← String.toList_inj]
  simp

theorem closesFirmly_quoteChar (c : Char) (rest : List Char) :
    closesFirmly (quoteChar c ++ rest) = closesFirmly rest := by
  unfold quoteChar
  split
  · exact Terminal.closesFirmly_escaped _ _
  · rename_i hslash
    split
    · exact Terminal.closesFirmly_escaped _ _
    · rename_i hquote
      split
      · exact Terminal.closesFirmly_escaped _ _
      · exact Terminal.closesFirmly_plain hquote hslash rest

/-- A character is read back from what it is written as. -/
theorem unescape_quoteChar (c : Char) (rest : List Char) :
    unescape (quoteChar c ++ rest) = (unescape rest).map (c :: ·) := by
  have hescaped (d : Char) (hnumber : numbered? (d :: rest) = none) (hfeed : d ≠ '\n') :
      unescape ('\\' :: d :: rest) = (unescape rest).map (escapedChar d :: ·) := by
    rw [unescape_backslash, escape, hnumber]
    simp [hfeed]
  unfold quoteChar
  split
  · rename_i hslash
    rw [hslash]
    exact hescaped '\\' rfl (by decide)
  · rename_i hslash
    split
    · rename_i hquote
      rw [hquote]
      exact hescaped '"' rfl (by decide)
    · split
      · rename_i hfeed
        rw [hfeed]
        exact hescaped 'n' rfl (by decide)
      · exact unescape_char hslash rest

theorem unescape_flatMap_quoteChar (value : List Char) :
    unescape (value.flatMap quoteChar) = some value := by
  induction value with
  | nil => simp [unescape]
  | cons c value ih =>
    rw [List.flatMap_cons, unescape_quoteChar, ih]
    rfl

/-! ### Raw strings -/

def fence (hashes : Nat) : List Char := '"' :: List.replicate hashes '#'

/-- The content as a raw string, with the letter of a byte literal before it or not. -/
def rawQuote (isByte : Bool) (hashes : Nat) (content : String) : String :=
  String.ofList ((if isByte then ['b'] else []) ++
    'r' :: (List.replicate hashes '#' ++ '"' :: (content.toList ++ fence hashes)))

section
variable {isByte : Bool} {hashes : Nat} {content : String}

theorem isToken_rawQuote (h : ¬fence hashes <:+: content.toList) :
    IsToken .rawString (rawQuote isByte hashes content) := by
  refine isToken_of_next? ?_ rfl rfl
  have hhashes : ∀ c ∈ List.replicate hashes '#', c = '#' := fun c => List.eq_of_mem_replicate
  have hfenced : Terminal.fenced (List.replicate hashes '#' ++ '"' :: (content.toList ++
      fence hashes)) = some (List.replicate hashes '#' ++ '"' :: (content.toList ++
      fence hashes), []) := by
    rw [Terminal.fenced_append fun c hc => beq_iff_eq.2 (hhashes c hc), fence,
      Terminal.throughFence_append hhashes h]
    simp [Terminal.prepend]
  rw [rawQuote, String.toList_ofList]
  refine Terminal.next?_of_rawString ?_
  cases isByte with
  | true => exact @Terminal.prepend_append ['b', 'r'] _ _ _ hfenced
  | false => exact @Terminal.prepend_append ['r'] _ _ _ hfenced

theorem rawValue_fenced (hashes : Nat) (content : List Char) :
    rawValue ('r' :: (List.replicate hashes '#' ++ '"' :: (content ++ fence hashes))) =
      content := by
  have hrun : ((List.replicate hashes '#' ++ '"' :: (content ++ fence hashes)).takeWhile
      (· == '#')).length = hashes := by
    rw [List.takeWhile_append_of_pos fun c hc => by simp [List.eq_of_mem_replicate hc]]
    simp
  -- What stands before the content, and what stands before its closing quote.
  let front := 'r' :: List.replicate hashes '#' ++ ['"']
  have hsplit : 'r' :: (List.replicate hashes '#' ++ '"' :: (content ++ fence hashes)) =
      front ++ content ++ fence hashes := by
    simp [front]
  have hfront : front.length = 2 + hashes := by
    simp [front]
    omega
  have hend : (front ++ content ++ fence hashes).length - 1 - hashes =
      (front ++ content).length := by
    simp [fence]
    omega
  rw [rawValue, List.drop_one, List.tail_cons, hrun, hsplit, hend, List.take_left, ← hfront,
    List.drop_left]

theorem decode_rawQuote : decode (rawQuote isByte hashes content) = some content := by
  have hvalue := congrArg String.ofList (rawValue_fenced hashes content.toList)
  rw [String.ofList_toList] at hvalue
  rw [decode, rawQuote, String.toList_ofList]
  cases isByte with
  | true => exact congrArg some hvalue
  | false => exact congrArg some hvalue

end

/-- A value is read back from the literals that it is written as, each of which is one token:
from a string with what needs it escaped, and from a raw string, if no quote in the value has
so many hashes behind it. -/
theorem decode_literal :
    (∀ value : String, IsToken .string (quote value) ∧ decode (quote value) = some value) ∧
    ∀ (isByte : Bool) (hashes : Nat) (content : String), ¬fence hashes <:+: content.toList →
      IsToken .rawString (rawQuote isByte hashes content) ∧
        decode (rawQuote isByte hashes content) = some content := by
  refine ⟨fun value => ?_, fun isByte hashes content h => ⟨isToken_rawQuote h, decode_rawQuote⟩⟩
  have hcloses : closesFirmly (value.toList.flatMap quoteChar ++ ['"']) = true :=
    Terminal.closesFirmly_flatMap (fun c _ => closesFirmly_quoteChar c) ['"']
  rw [quote_eq, decode_quoted, unescape_flatMap_quoteChar, Option.map_some, String.ofList_toList]
  exact ⟨isToken_quoted hcloses, rfl⟩

/-- Two hashes keep a quote with one hash behind it inside the literal. -/
theorem decode_literal_raw :
    ¬fence 2 <:+: "a\"#b".toList ∧ IsToken .rawString (rawQuote true 2 "a\"#b") ∧
      decode (rawQuote true 2 "a\"#b") = some "a\"#b" :=
  have hopen : ¬fence 2 <:+: "a\"#b".toList := by decide
  ⟨hopen, decode_literal.2 true 2 "a\"#b" hopen⟩

end Literal
end LuaBindings
