import LuaBindings.Token

/-!
# Terminals of the token grammar

Each terminal takes a lexeme off the front of a text or refuses. They are tried
in the order of `terminals`, and the first that takes something decides, even
where a later one would take more. Names and numbers are ASCII. What a terminal
takes is a non-empty front part of the text (`Recogniser.Sound`), so a lexer
that steps over it always comes closer to the end.
-/

set_option autoImplicit false

namespace LuaBindings.Terminal

abbrev Recogniser := List Char → Option (List Char × List Char)

def prepend (front : List Char) : Option (List Char × List Char) → Option (List Char × List Char)
  | none => none
  | some (lexeme, rest) => some (front ++ lexeme, rest)

/-- The longest front part whose characters all satisfy `p`; it may be empty. -/
def run (p : Char → Bool) (text : List Char) : List Char × List Char :=
  (text.takeWhile p, text.dropWhile p)

def isNameStart (c : Char) : Bool := c.isAlpha || c == '_'

def isNameChar (c : Char) : Bool := c.isAlphanum || c == '_'

def isHexDigit (c : Char) : Bool :=
  c.isDigit || ('a' ≤ c && c ≤ 'f') || ('A' ≤ c && c ≤ 'F')

/-! ### Comments -/

def lineComment : Recogniser
  | '/' :: '/' :: rest => prepend ['/', '/'] (some (run (· != '\n') rest))
  | _ => none

def throughCommentEnd : Recogniser
  | [] => none
  | '*' :: '/' :: rest => some (['*', '/'], rest)
  | c :: rest => prepend [c] (throughCommentEnd rest)

/-- A block comment that closes at its first end mark. Without an end mark there
is no comment, and the slash and the star are punctuation. -/
def blockComment : Recogniser
  | '/' :: '*' :: rest => prepend ['/', '*'] (throughCommentEnd rest)
  | _ => none

/-! ### Literals -/

def throughFence (hashes : List Char) : Recogniser
  | [] => none
  | c :: rest =>
    if c = '"' ∧ hashes <+: rest then some ('"' :: hashes, rest.drop hashes.length)
    else prepend [c] (throughFence hashes rest)

def fenced (text : List Char) : Option (List Char × List Char) :=
  match run (· == '#') text with
  | (hashes, '"' :: rest) => prepend (hashes ++ ['"']) (throughFence hashes rest)
  | _ => none

def rawString : Recogniser
  | 'b' :: 'r' :: rest => prepend ['b', 'r'] (fenced rest)
  | 'r' :: rest => prepend ['r'] (fenced rest)
  | _ => none

/-- Through the closing quote. A backslash takes the next character with it, unless
that is a quote and the last one of the text, which then closes the literal. -/
def throughQuote : Recogniser
  | [] => none
  | '"' :: rest => some (['"'], rest)
  | ['\\'] => none
  | '\\' :: c :: rest =>
    match throughQuote rest with
    | some (lexeme, rest) => some ('\\' :: c :: lexeme, rest)
    | none => if c = '"' then some (['\\', '"'], rest) else none
  | c :: rest => prepend [c] (throughQuote rest)

def string : Recogniser
  | 'b' :: '"' :: rest => prepend ['b', '"'] (throughQuote rest)
  | '"' :: rest => prepend ['"'] (throughQuote rest)
  | _ => none

def unicodeEscape : Recogniser
  | '\\' :: 'u' :: '\x7b' :: rest =>
    match run isHexDigit rest with
    | (digits, '\x7d' :: rest) =>
      if 1 ≤ digits.length ∧ digits.length ≤ 6 then
        some (['\\', 'u', '\x7b'] ++ digits ++ ['\x7d'], rest)
      else none
    | _ => none
  | _ => none

def byteEscape : Recogniser
  | '\\' :: 'x' :: c :: d :: rest =>
    if isHexDigit c ∧ isHexDigit d then some (['\\', 'x', c, d], rest) else none
  | _ => none

def simpleEscape : Recogniser
  | '\\' :: c :: rest => if c = '\n' then none else some (['\\', c], rest)
  | _ => none

def plainChar : Recogniser
  | c :: rest => if c = '\\' ∨ c = '\'' ∨ c = '\n' then none else some ([c], rest)
  | [] => none

def closed (content : Recogniser) (text : List Char) : Option (List Char × List Char) :=
  match content text with
  | some (lexeme, '\'' :: rest) => some (lexeme ++ ['\''], rest)
  | _ => none

def charBody (text : List Char) : Option (List Char × List Char) :=
  [unicodeEscape, byteEscape, simpleEscape, plainChar].findSome? (closed · text)

def char : Recogniser
  | 'b' :: '\'' :: rest => prepend ['b', '\''] (charBody rest)
  | '\'' :: rest => prepend ['\''] (charBody rest)
  | _ => none

/-! ### Names and numbers -/

/-- A character of one class, and all behind it that are of another. -/
def word (first more : Char → Bool) : Recogniser
  | c :: rest => if first c then prepend [c] (some (run more rest)) else none
  | [] => none

def plainName : Recogniser := word isNameStart isNameChar

def lifetime : Recogniser
  | '\'' :: rest => prepend ['\''] (plainName rest)
  | _ => none

def rawName : Recogniser
  | 'r' :: '#' :: rest => prepend ['r', '#'] (plainName rest)
  | _ => none

def ident (text : List Char) : Option (List Char × List Char) :=
  (rawName text).or (plainName text)

def digits : Recogniser := word Char.isDigit isNameChar

def fraction : Recogniser
  | '.' :: rest => prepend ['.'] (digits rest)
  | _ => none

def number (text : List Char) : Option (List Char × List Char) :=
  match digits text with
  | none => none
  | some (whole, rest) => prepend whole ((fraction rest).or (some ([], rest)))

/-! ### White space, punctuation and delimiters -/

def isSpace (c : Char) : Bool := c ∈ [' ', '\t', '\x0c', '\r', '\n']

def space : Recogniser := word isSpace isSpace

def punctChars : List Char :=
  ['-', '+', '*', '/', '%', '^', '!', '&', '|', '=', '<', '>', '@', '.', ',', ';', ':', '#', '$',
    '?', '~']

def punctPairs : List (Char × Char) := [(':', ':'), ('-', '>'), ('=', '>')]

def punct : Recogniser
  | c :: d :: rest =>
    if (c, d) ∈ punctPairs then some ([c, d], rest)
    else if c ∈ punctChars then some ([c], d :: rest) else none
  | [c] => if c ∈ punctChars then some ([c], []) else none
  | [] => none

def single (mark : Char) : Recogniser
  | c :: rest => if c = mark then some ([mark], rest) else none
  | [] => none

def terminals : List (TokenKind × Recogniser) :=
  [(.lineComment, lineComment), (.blockComment, blockComment), (.rawString, rawString),
    (.string, string), (.char, char), (.lifetime, lifetime), (.ident, ident), (.number, number),
    (.space, space), (.punct, punct),
    (.opener .paren, single '('), (.closer .paren, single ')'),
    (.opener .bracket, single '['), (.closer .bracket, single ']'),
    (.opener .brace, single '\x7b'), (.closer .brace, single '\x7d')]

/-- The kind and lexeme at the front of a text, and the text after it. -/
def next? (text : List Char) : Option (TokenKind × List Char × List Char) :=
  terminals.findSome? fun terminal => (terminal.2 text).map fun split => (terminal.1, split)

/-! ### What is taken is a front part -/

def Recogniser.Splits (f : Recogniser) : Prop :=
  ∀ text lexeme rest, f text = some (lexeme, rest) → lexeme ++ rest = text

/-- Lexeme and rest make up the text, and the lexeme is not empty. -/
def Recogniser.Sound (f : Recogniser) : Prop :=
  ∀ text lexeme rest, f text = some (lexeme, rest) → lexeme ++ rest = text ∧ lexeme ≠ []

theorem prepend_eq_some {front lexeme rest : List Char}
    {split : Option (List Char × List Char)} (h : prepend front split = some (lexeme, rest)) :
    ∃ tail, split = some (tail, rest) ∧ lexeme = front ++ tail := by
  match split, h with
  | some (tail, _), h =>
    simp only [prepend, Option.some.injEq, Prod.mk.injEq] at h
    exact ⟨tail, by rw [h.2], h.1.symm⟩

theorem run_append (p : Char → Bool) (text : List Char) : (run p text).1 ++ (run p text).2 = text :=
  List.takeWhile_append_dropWhile

theorem run_splits (p : Char → Bool) : Recogniser.Splits fun text => some (run p text) := by
  intro text lexeme rest h
  simp only [Option.some.injEq] at h
  simpa [h] using run_append p text

theorem throughCommentEnd_splits : Recogniser.Splits throughCommentEnd := by
  intro text
  fun_induction throughCommentEnd text with
  | case1 => simp
  | case2 rest => simp_all
  | case3 c rest _ ih =>
    intro lexeme rest' h
    obtain ⟨tail, htail, rfl⟩ := prepend_eq_some h
    simp [ih _ _ htail]

theorem throughFence_splits (hashes : List Char) : Recogniser.Splits (throughFence hashes) := by
  intro text
  fun_induction throughFence hashes text with
  | case1 => simp
  | case2 c rest h =>
    obtain ⟨rfl, tail, rfl⟩ := h
    intro lexeme rest' h
    simp only [Option.some.injEq, Prod.mk.injEq] at h
    simp [← h.1, ← h.2]
  | case3 c rest _ ih =>
    intro lexeme rest' h
    obtain ⟨tail, htail, rfl⟩ := prepend_eq_some h
    simp [ih _ _ htail]

theorem fenced_splits : Recogniser.Splits fenced := by
  intro text lexeme rest h
  unfold fenced at h
  split at h
  · rename_i hashes rest' hrun
    obtain ⟨tail, htail, rfl⟩ := prepend_eq_some h
    have hsplit := run_append (· == '#') text
    rw [hrun] at hsplit
    simp [← hsplit, throughFence_splits _ _ _ _ htail]
  · simp at h

theorem throughQuote_splits : Recogniser.Splits throughQuote := by
  intro text
  fun_induction throughQuote text with
  | case1 => simp
  | case2 rest => simp_all
  | case3 => simp
  | case4 c rest lexeme after hsome ih => simp [← ih _ _ hsome]
  | case5 => simp_all
  | case6 => simp
  | case7 c rest _ _ _ ih =>
    intro lexeme rest' h
    obtain ⟨tail, htail, rfl⟩ := prepend_eq_some h
    simp [ih _ _ htail]

/-- A fixed front that is not empty before a split of what follows. -/
theorem sound_of_prepend {f : Recogniser} {front text rest lexeme after : List Char}
    (hf : f.Splits) (hfront : front ≠ []) (htext : text = front ++ rest)
    (h : prepend front (f rest) = some (lexeme, after)) : lexeme ++ after = text ∧ lexeme ≠ [] := by
  obtain ⟨tail, htail, rfl⟩ := prepend_eq_some h
  refine ⟨?_, by simp [hfront]⟩
  rw [htext, List.append_assoc, hf _ _ _ htail]

theorem lineComment_sound : Recogniser.Sound lineComment := by
  intro text lexeme rest h
  unfold lineComment at h
  split at h
  · exact sound_of_prepend (run_splits _) (by simp) (by simp) h
  · simp at h

theorem blockComment_sound : Recogniser.Sound blockComment := by
  intro text lexeme rest h
  unfold blockComment at h
  split at h
  · exact sound_of_prepend throughCommentEnd_splits (by simp) (by simp) h
  · simp at h

theorem rawString_sound : Recogniser.Sound rawString := by
  intro text lexeme rest h
  unfold rawString at h
  split at h
  · exact sound_of_prepend fenced_splits (by simp) (by simp) h
  · exact sound_of_prepend fenced_splits (by simp) (by simp) h
  · simp at h

theorem string_sound : Recogniser.Sound string := by
  intro text lexeme rest h
  unfold string at h
  split at h
  · exact sound_of_prepend throughQuote_splits (by simp) (by simp) h
  · exact sound_of_prepend throughQuote_splits (by simp) (by simp) h
  · simp at h

theorem unicodeEscape_splits : Recogniser.Splits unicodeEscape := by
  intro text lexeme rest h
  unfold unicodeEscape at h
  split at h
  · rename_i tail
    split at h
    · rename_i digits rest' hrun
      split at h
      · simp only [Option.some.injEq, Prod.mk.injEq] at h
        have hsplit := run_append isHexDigit tail
        rw [hrun] at hsplit
        simp [← h.1, ← h.2, ← hsplit]
      · simp at h
    · simp at h
  · simp at h

theorem byteEscape_splits : Recogniser.Splits byteEscape := by
  intro text lexeme rest h
  unfold byteEscape at h
  split at h
  · split at h
    · simp only [Option.some.injEq, Prod.mk.injEq] at h
      simp [← h.1, ← h.2]
    · simp at h
  · simp at h

theorem simpleEscape_splits : Recogniser.Splits simpleEscape := by
  intro text lexeme rest h
  unfold simpleEscape at h
  split at h
  · split at h
    · simp at h
    · simp only [Option.some.injEq, Prod.mk.injEq] at h
      simp [← h.1, ← h.2]
  · simp at h

theorem plainChar_splits : Recogniser.Splits plainChar := by
  intro text lexeme rest h
  unfold plainChar at h
  split at h
  · split at h
    · simp at h
    · simp only [Option.some.injEq, Prod.mk.injEq] at h
      simp [← h.1, ← h.2]
  · simp at h

theorem closed_splits {content : Recogniser} (hcontent : content.Splits) :
    Recogniser.Splits (closed content) := by
  intro text lexeme rest h
  unfold closed at h
  split at h
  · rename_i lexeme' rest' hl
    simp only [Option.some.injEq, Prod.mk.injEq] at h
    rw [← h.1, ← h.2, List.append_assoc]
    exact hcontent _ _ _ hl
  · simp at h

theorem charBody_splits : Recogniser.Splits charBody := by
  intro text lexeme rest h
  obtain ⟨f, hf, hsome⟩ := List.exists_of_findSome?_eq_some h
  have hsplits : f.Splits := by
    simp only [List.mem_cons, List.not_mem_nil, or_false] at hf
    obtain rfl | rfl | rfl | rfl := hf
    · exact unicodeEscape_splits
    · exact byteEscape_splits
    · exact simpleEscape_splits
    · exact plainChar_splits
  exact closed_splits hsplits _ _ _ hsome

theorem char_sound : Recogniser.Sound char := by
  intro text lexeme rest h
  unfold char at h
  split at h
  · exact sound_of_prepend charBody_splits (by simp) (by simp) h
  · exact sound_of_prepend charBody_splits (by simp) (by simp) h
  · simp at h

theorem word_sound (first more : Char → Bool) : Recogniser.Sound (word first more) := by
  intro text lexeme rest h
  unfold word at h
  split at h
  · split at h
    · exact sound_of_prepend (run_splits _) (by simp) (by simp) h
    · simp at h
  · simp at h

theorem plainName_sound : Recogniser.Sound plainName := word_sound _ _

theorem Recogniser.Sound.splits {f : Recogniser} (hf : f.Sound) : f.Splits :=
  fun _ _ _ h => (hf _ _ _ h).1

theorem lifetime_sound : Recogniser.Sound lifetime := by
  intro text lexeme rest h
  unfold lifetime at h
  split at h
  · exact sound_of_prepend plainName_sound.splits (by simp) (by simp) h
  · simp at h

theorem rawName_sound : Recogniser.Sound rawName := by
  intro text lexeme rest h
  unfold rawName at h
  split at h
  · exact sound_of_prepend plainName_sound.splits (by simp) (by simp) h
  · simp at h

theorem ident_sound : Recogniser.Sound ident := by
  intro text lexeme rest h
  rcases Option.or_eq_some_iff.1 h with h | ⟨_, h⟩
  · exact rawName_sound _ _ _ h
  · exact plainName_sound _ _ _ h

theorem digits_sound : Recogniser.Sound digits := word_sound _ _

theorem fraction_sound : Recogniser.Sound fraction := by
  intro text lexeme rest h
  unfold fraction at h
  split at h
  · exact sound_of_prepend digits_sound.splits (by simp) (by simp) h
  · simp at h

theorem optionalFraction_splits :
    Recogniser.Splits fun text => (fraction text).or (some ([], text)) := by
  intro text lexeme rest h
  rcases Option.or_eq_some_iff.1 h with h | ⟨_, h⟩
  · exact (fraction_sound _ _ _ h).1
  · simp only [Option.some.injEq, Prod.mk.injEq] at h
    simp [← h.1, ← h.2]

theorem number_sound : Recogniser.Sound number := by
  intro text lexeme rest h
  unfold number at h
  split at h
  · simp at h
  · rename_i whole tail hwhole
    obtain ⟨happ, hne⟩ := digits_sound _ _ _ hwhole
    exact sound_of_prepend optionalFraction_splits hne happ.symm h

theorem space_sound : Recogniser.Sound space := word_sound _ _

theorem punct_sound : Recogniser.Sound punct := by
  intro text lexeme rest h
  unfold punct at h
  split at h <;> (try split at h) <;> (try split at h) <;>
    simp only [Option.some.injEq, Prod.mk.injEq, reduceCtorEq] at h <;> simp [← h.1, ← h.2]

theorem single_sound (mark : Char) : Recogniser.Sound (single mark) := by
  intro text lexeme rest h
  unfold single at h
  split at h
  · split at h
    · rename_i hc
      simp only [Option.some.injEq, Prod.mk.injEq] at h
      simp [← h.1, ← h.2, hc]
    · simp at h
  · simp at h

theorem terminals_sound : ∀ terminal ∈ terminals, Recogniser.Sound terminal.2 := by
  simp only [terminals, List.forall_mem_cons, List.not_mem_nil, false_implies, implies_true,
    and_true]
  exact ⟨lineComment_sound, blockComment_sound, rawString_sound, string_sound, char_sound,
    lifetime_sound, ident_sound, number_sound, space_sound, punct_sound, single_sound _,
    single_sound _, single_sound _, single_sound _, single_sound _, single_sound _⟩

theorem next?_sound {text lexeme rest : List Char} {kind : TokenKind}
    (h : next? text = some (kind, lexeme, rest)) : lexeme ++ rest = text ∧ lexeme ≠ [] := by
  obtain ⟨terminal, hmem, hsome⟩ := List.exists_of_findSome?_eq_some h
  obtain ⟨⟨lexeme', rest'⟩, hsplit, heq⟩ := Option.map_eq_some_iff.1 hsome
  simp only [Prod.mk.injEq] at heq
  obtain ⟨_, rfl, rfl⟩ := heq
  exact terminals_sound terminal hmem _ _ _ hsplit

theorem next?_rest_lt {text lexeme rest : List Char} {kind : TokenKind}
    (h : next? text = some (kind, lexeme, rest)) : rest.length < text.length := by
  obtain ⟨rfl, hne⟩ := next?_sound h
  have := List.length_pos_iff.2 hne
  simp only [List.length_append]
  omega

end LuaBindings.Terminal
