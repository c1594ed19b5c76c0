import Mathlib
import Freshen.Token.Lexer

/-!
# The patterns of the lexemes

The lexical grammar as a list of patterns, and reading by the longest match of any of them.

- `LexicalRule`, `LexicalRule.texts`: the rules of the lexical grammar and the language of each.
- `Quoted.Items`: the items inside a string literal, with what they denote.
- `Denotes`: the token that the text of a lexeme stands for.
- `LongestMatch`: a text that matches a rule, where no longer text from the same place on does.
- `TokenKind.fuses`: the characters that would go on with a token, or make another one of it.
- `Lexeme.Scans`: all that can be read at a place, by the characters there.

**Key results.** `Keyword.ofWord?_eq_some_iff`, `Mark.text_of_ofPair?`, `Mark.text_of_ofChar?`: what reserved
words and marks are read from is how they are spelled; `Lexeme.denotes_of_scan`, `Lexeme.scan_of_denotes`: what
is read as a token denotes it, and what denotes a token is read as it, whatever follows that does not fuse with
it; `Lexeme.scan_of_mem_texts`: where a pattern matches, something is read, and no less than it matches;
`Lexeme.longestMatch_of_mem_texts`: what is read is the longest match; `LongestMatch.fuses_eq_false`:
nothing that fuses with a token follows a longest match.
-/

namespace Freshen

open scoped Computability

/-! ### The rules -/

/-- The texts of one character that has a property. -/
def oneOf (p : Char → Bool) : Language Char := {w | ∃ c, p c = true ∧ w = [c]}

/-- The items inside a string literal: a character that stands for itself, or an escape. -/
def Quoted.item : Language Char :=
  oneOf (fun c => c ≠ '"' ∧ c ≠ '\\') + {['\\']} * oneOf (· ≠ '\n')

/-- What can stand at a place of a text: the two kinds of text that are skipped, and the tokens. -/
inductive LexicalRule where
  | blanks
  | comment
  | keyword (word : Keyword)
  | mark (mark : Mark)
  | int
  | str
  | ident

/-- The texts that match a rule. -/
def LexicalRule.texts : LexicalRule → Language Char
  | blanks => oneOf isBlank * (oneOf isBlank)∗
  | comment => {['/', '/']} * (oneOf (· ≠ '\n'))∗
  | keyword k => {k.text.toList}
  | mark m => {m.text.toList}
  | int => oneOf Char.isDigit * (oneOf isDigitPart)∗
  | str => {['"']} * Quoted.item∗ * {['"']}
  | ident => oneOf isWordStart * (oneOf isWordPart)∗

/-- The text `w` in front of `rest` matches a rule, and nothing longer from the same place on does. -/
def LongestMatch (w rest : List Char) : Prop :=
  (∃ r : LexicalRule, w ∈ r.texts) ∧
    ∀ r : LexicalRule, ∀ w' ∈ r.texts, w' <+: w ++ rest → w'.length ≤ w.length

/-- The items of a text inside a string literal, and what they denote. -/
inductive Quoted.Items : List Char → List Char → Prop where
  | nil : Items [] []
  | plain {c : Char} {inside value : List Char} (hquote : c ≠ '"') (hbackslash : c ≠ '\\')
      (h : Items inside value) : Items (c :: inside) (c :: value)
  | escape {c : Char} {inside value : List Char} (hline : c ≠ '\n') (h : Items inside value) :
      Items ('\\' :: c :: inside) (escaped c ++ value)

/-- The token that the text of a lexeme stands for.  A word is an identifier only if it is no reserved
word and not the underscore. -/
inductive Denotes : List Char → TokenKind → Prop where
  | keyword (word : Keyword) : Denotes word.text.toList (.keyword word)
  | mark (mark : Mark) : Denotes mark.text.toList (.mark mark)
  | int {w : List Char} {value : Int64} (hw : w ∈ LexicalRule.int.texts)
      (hvalue : value.toInt = Decimal.value (w.filter (· ≠ '_'))) : Denotes w (.int value)
  | str {inside value : List Char} (h : Quoted.Items inside value) :
      Denotes ('"' :: inside ++ ['"']) (.str (String.ofList value))
  | ident {w : List Char} (hw : w ∈ LexicalRule.ident.texts)
      (hkeyword : ∀ k : Keyword, w ≠ k.text.toList) (hunderscore : w ≠ ['_']) :
      Denotes w (.ident (String.ofList w))

/-- A letter or an underscore, and letters, digits and underscores after it. -/
def IsWord (text : String) : Prop :=
  ∃ c cs, text = String.ofList (c :: cs) ∧ isWordStart c = true ∧ ∀ d ∈ cs, isWordPart d = true

/-- Whether a character right after the token is read as a part of it, or makes another token. -/
def TokenKind.fuses : TokenKind → Char → Bool
  | ident _, c | keyword _, c | mark .underscore, c => isWordPart c
  | int _, c => isDigitPart c
  | mark .colon, c => c = ':'
  | mark .eq, c | mark .lt, c | mark .gt, c => c = '='
  | mark .slash, c => c = '/'
  | _, _ => false

/-- What is read at the start of the text `c :: cs`, and how many characters of `cs` belong to it. -/
inductive Lexeme.Scans (c : Char) (cs : List Char) : Lexeme → (more : Nat) → Prop where
  | blanks (hc : isBlank c = true) : Scans c cs skip (cs.takeWhile isBlank).length
  | comment (hc : c = '/') (hnext : cs.head? = some '/') :
      Scans c cs skip (cs.takeWhile (· ≠ '\n')).length
  | word (hc : isWordStart c = true) :
      Scans c cs (token (.ofWord (String.ofList (c :: cs.takeWhile isWordPart))))
        (cs.takeWhile isWordPart).length
  | int (hc : c.isDigit = true)
      (hmax : Decimal.value ((c :: cs.takeWhile isDigitPart).filter Char.isDigit) ≤ maxInt) :
      Scans c cs (token (.int (Int64.ofNat
        (Decimal.value ((c :: cs.takeWhile isDigitPart).filter Char.isDigit)))))
        (cs.takeWhile isDigitPart).length
  | overflow (hc : c.isDigit = true)
      (hmax : maxInt < Decimal.value ((c :: cs.takeWhile isDigitPart).filter Char.isDigit)) :
      Scans c cs overflow (cs.takeWhile isDigitPart).length
  | str (hc : c = '"') (hclose : (cs.drop (Quoted.runLength cs)).head? = some '"') :
      Scans c cs (token (.str (String.ofList (Quoted.decode (cs.take (Quoted.runLength cs))))))
        (Quoted.runLength cs + 1)
  | unfinished (hc : c = '"') : Scans c cs invalid (Quoted.runLength cs)
  | pair {d : Char} {m : Mark} (hnext : cs.head? = some d) (hpair : Mark.ofPair? c d = some m) :
      Scans c cs (token (.mark m)) 1
  | char {m : Mark} (hchar : Mark.ofChar? c = some m) : Scans c cs (token (.mark m)) 0
  | stray (hquote : c ≠ '"') (hword : isWordStart c = false) (hchar : Mark.ofChar? c = none) :
      Scans c cs invalid 0

/-! ### Membership in the languages -/

/-- A repetition of characters with a property consists of such characters. -/
theorem mem_kstar_oneOf {p : Char → Bool} {w : List Char} :
    w ∈ (oneOf p)∗ ↔ ∀ c ∈ w, p c = true := by
  rw [Language.mem_kstar]
  constructor
  · rintro ⟨parts, rfl, hparts⟩ c hc
    obtain ⟨part, hpart, hcpart⟩ := List.mem_flatten.1 hc
    obtain ⟨d, hd, rfl⟩ := hparts part hpart
    rwa [List.mem_singleton.1 hcpart]
  · intro h
    refine ⟨w.map ([·]), (List.flatMap_singleton' w).symm, fun part hpart => ?_⟩
    obtain ⟨c, hc, rfl⟩ := List.mem_map.1 hpart
    exact ⟨c, h c hc, rfl⟩

/-- A character with one property, and then any number of characters with another. -/
theorem mem_oneOf_mul_kstar {p q : Char → Bool} {w : List Char} :
    w ∈ oneOf p * (oneOf q)∗ ↔ ∃ c cs, w = c :: cs ∧ p c = true ∧ ∀ d ∈ cs, q d = true := by
  rw [Language.mem_mul]
  constructor
  · rintro ⟨_, ⟨c, hc, rfl⟩, cs, hcs, rfl⟩
    exact ⟨c, cs, rfl, hc, mem_kstar_oneOf.1 hcs⟩
  · rintro ⟨c, cs, rfl, hc, hcs⟩
    exact ⟨[c], ⟨c, hc, rfl⟩, cs, mem_kstar_oneOf.2 hcs, rfl⟩

/-- A comment is made of two slashes and the rest of the line. -/
theorem LexicalRule.mem_texts_comment {w : List Char} :
    w ∈ comment.texts ↔ ∃ cs, w = '/' :: '/' :: cs ∧ ∀ d ∈ cs, d ≠ '\n' := by
  rw [texts, Language.mem_mul]
  constructor
  · rintro ⟨_, rfl, cs, hcs, rfl⟩
    exact ⟨cs, rfl, fun d hd => of_decide_eq_true (mem_kstar_oneOf.1 hcs d hd)⟩
  · rintro ⟨cs, rfl, hcs⟩
    exact ⟨_, rfl, cs, mem_kstar_oneOf.2 fun d hd => decide_eq_true (hcs d hd), rfl⟩

/-- A repetition of items is what items make up. -/
theorem Quoted.mem_kstar_item {inside : List Char} : inside ∈ item∗ ↔ ∃ value, Items inside value := by
  constructor
  · rw [Language.mem_kstar]
    rintro ⟨parts, rfl, hparts⟩
    induction parts with
    | nil => exact ⟨[], .nil⟩
    | cons part parts ih =>
        obtain ⟨value, hvalue⟩ := ih fun u hu => hparts u (.tail _ hu)
        rcases hparts part (.head _) with ⟨c, hc, rfl⟩ | hescape
        · obtain ⟨hquote, hbackslash⟩ := of_decide_eq_true hc
          exact ⟨_, hvalue.plain hquote hbackslash⟩
        · obtain ⟨_, rfl, _, ⟨c, hc, rfl⟩, rfl⟩ := Language.mem_mul.1 hescape
          exact ⟨_, hvalue.escape (of_decide_eq_true hc)⟩
  · rintro ⟨value, h⟩
    induction h with
    | nil => exact Language.nil_mem_kstar item
    | @plain c inside value hquote hbackslash _ ih =>
        rw [← Language.one_add_self_mul_kstar_eq_kstar item]
        exact .inr ⟨[c], .inl ⟨c, by simp [hquote, hbackslash], rfl⟩, inside, ih, rfl⟩
    | @escape c inside value hline _ ih =>
        rw [← Language.one_add_self_mul_kstar_eq_kstar item]
        exact .inr ⟨['\\', c], .inr ⟨_, rfl, [c], ⟨c, by simp [hline], rfl⟩, rfl⟩, inside, ih, rfl⟩

/-- A string literal is made of items between quotes. -/
theorem LexicalRule.mem_texts_str {w : List Char} :
    w ∈ str.texts ↔ ∃ inside value, w = '"' :: inside ++ ['"'] ∧ Quoted.Items inside value := by
  simp only [texts, Language.mem_mul]
  constructor
  · rintro ⟨_, ⟨_, rfl, inside, hinside, rfl⟩, _, rfl, rfl⟩
    obtain ⟨value, hvalue⟩ := Quoted.mem_kstar_item.1 hinside
    exact ⟨inside, value, rfl, hvalue⟩
  · rintro ⟨inside, value, rfl, hvalue⟩
    exact ⟨_, ⟨_, rfl, inside, Quoted.mem_kstar_item.2 ⟨value, hvalue⟩, rfl⟩, _, rfl, rfl⟩

/-- The texts of identifiers are the words. -/
theorem LexicalRule.mem_texts_ident {w : List Char} : w ∈ ident.texts ↔ IsWord (String.ofList w) := by
  refine mem_oneOf_mul_kstar.trans (exists_congr fun c => exists_congr fun cs => ?_)
  rw [String.ofList_inj]

/-- A keyword is a word. -/
theorem Keyword.isWord_text (k : Keyword) : IsWord k.text := by
  cases k <;> exact ⟨_, _, rfl, rfl, by simp [isWordPart]⟩

/-- The spelling of a keyword is one that the rule for words matches. -/
theorem Keyword.text_mem_ident (k : Keyword) : k.text.toList ∈ LexicalRule.ident.texts := by
  rw [LexicalRule.mem_texts_ident, String.ofList_toList]
  exact k.isWord_text

/-! ### Inside a string literal -/

namespace Quoted

/-- A character other than a backslash stands for itself. -/
theorem decode_cons {c : Char} (hc : c ≠ '\\') (cs : List Char) : decode (c :: cs) = c :: decode cs := by
  cases cs with
  | nil => rfl
  | cons d cs => simp [decode, hc]

/-- A character that ends no literal and is no backslash is an item. -/
theorem runLength_cons {c : Char} (hquote : c ≠ '"') (hbackslash : c ≠ '\\') (cs : List Char) :
    runLength (c :: cs) = runLength cs + 1 := by
  cases cs with
  | nil => simp [runLength, hquote, hbackslash]
  | cons d cs => simp [runLength, hquote, hbackslash, Nat.add_comm]

/-- Items are read as what they denote. -/
theorem Items.decode_eq {inside value : List Char} (h : Items inside value) : decode inside = value := by
  induction h with
  | nil => rfl
  | plain _ hbackslash _ ih => rw [decode_cons hbackslash, ih]
  | escape _ _ ih => rw [decode, if_pos rfl, ih]

/-- The run of items inside a literal ends at its closing quote. -/
theorem Items.runLength_append {inside value : List Char} (h : Items inside value) (rest : List Char) :
    runLength (inside ++ '"' :: rest) = inside.length := by
  induction h with
  | nil => cases rest <;> simp [runLength]
  | plain hquote hbackslash _ ih => rw [List.cons_append, runLength_cons hquote hbackslash, ih]; rfl
  | escape hline _ ih =>
      simp only [List.cons_append, runLength, ih, if_neg hline, List.length_cons]
      simp only [if_true, if_false, Char.reduceEq]
      omega

/-- What belongs to the run of items at the start of a text are items. -/
theorem items_take_runLength (cs : List Char) :
    Items (cs.take (runLength cs)) (decode (cs.take (runLength cs))) := by
  suffices h : ∃ value, Items (cs.take (runLength cs)) value by
    obtain ⟨value, hvalue⟩ := h
    rwa [hvalue.decode_eq]
  fun_induction runLength cs with
  | case1 => exact ⟨[], .nil⟩
  | case2 => exact ⟨[], .nil⟩
  | case3 c hc =>
      obtain ⟨hquote, hbackslash⟩ := not_or.1 hc
      exact ⟨_, Items.nil.plain hquote hbackslash⟩
  | case4 => exact ⟨[], .nil⟩
  | case5 => exact ⟨[], .nil⟩
  | case6 d cs hline _ ih =>
      obtain ⟨value, hvalue⟩ := ih
      rw [Nat.add_comm, List.take_succ_cons, List.take_succ_cons]
      exact ⟨_, hvalue.escape hline⟩
  | case7 c d cs hquote hbackslash ih =>
      obtain ⟨value, hvalue⟩ := ih
      rw [Nat.add_comm, List.take_succ_cons]
      exact ⟨_, hvalue.plain hquote hbackslash⟩

/-- An escaped text consists of items and denotes the text. -/
theorem items_flatMap (cs : List Char) : Items (cs.flatMap escape) cs := by
  induction cs with
  | nil => exact .nil
  | cons c cs ih =>
      rw [List.flatMap_cons]
      unfold escape
      split
      case h_7 hquote hbackslash _ _ _ _ => exact ih.plain hquote hbackslash
      all_goals exact ih.escape (by decide)

end Quoted

/-! ### Words and numbers -/

/-- A word may go on with what it may begin with. -/
theorem isWordPart_of_isWordStart {c : Char} (h : isWordStart c = true) : isWordPart c = true := by
  simp only [isWordStart, isWordPart, Char.isAlphanum, Bool.or_eq_true] at h ⊢
  tauto

/-- A word may go on with a digit. -/
theorem isWordPart_of_isDigit {c : Char} (h : c.isDigit = true) : isWordPart c = true := by
  simp [isWordPart, Char.isAlphanum, h]

/-- A character of a word or a number is not blank, and it does not begin a comment. -/
theorem isBlank_ne_of_isWordPart {c : Char} (h : isWordPart c = true) : isBlank c ≠ true ∧ c ≠ '/' := by
  constructor
  · intro hblank
    simp only [isBlank, Bool.or_eq_true, beq_iff_eq] at hblank
    rcases hblank with ((rfl | rfl) | rfl) | rfl <;> exact absurd h (by decide)
  · rintro rfl
    exact absurd h (by decide)

/-- The characters of a word may all stand inside a word. -/
theorem IsWord.isWordPart {text : String} (h : IsWord text) {c : Char} (hc : c ∈ text.toList) :
    isWordPart c = true := by
  obtain ⟨d, ds, rfl, hd, hds⟩ := h
  rw [String.toList_ofList] at hc
  rcases List.mem_cons.1 hc with rfl | hc
  · exact isWordPart_of_isWordStart hd
  · exact hds c hc

/-- A number may go on with a digit. -/
theorem isDigitPart_of_isDigit {c : Char} (h : c.isDigit = true) : isDigitPart c = true := by
  rw [isDigitPart, h, Bool.true_or]

/-- The lexer takes a word for a reserved one iff that is how the reserved word is spelled. -/
theorem Keyword.ofWord?_eq_some_iff {word : String} {k : Keyword} :
    ofWord? word = some k ↔ k.text = word := by
  constructor
  · intro h
    unfold ofWord? at h
    split at h
    case h_20 => cases h
    all_goals
      obtain rfl := Option.some.inj h
      rfl
  · rintro rfl
    cases k <;> rfl

/-- The lexer takes a word for none of the reserved ones iff none is spelled like it. -/
theorem Keyword.ofWord?_eq_none_iff {word : String} : ofWord? word = none ↔ ∀ k : Keyword, k.text ≠ word := by
  rw [Option.eq_none_iff_forall_ne_some]
  exact forall_congr' fun k => not_congr ofWord?_eq_some_iff

/-- The spelling of a reserved word is read as this word. -/
theorem Keyword.ofWord_text (k : Keyword) : TokenKind.ofWord k.text = .keyword k := by
  cases k <;> decide

/-- A word is a reserved word, the underscore or an identifier. -/
theorem denotes_ofWord {w : List Char} (hw : w ∈ LexicalRule.ident.texts) :
    Denotes w (.ofWord (String.ofList w)) := by
  by_cases hunderscore : String.ofList w = "_"
  · rw [TokenKind.ofWord, if_pos hunderscore, ← String.toList_ofList (l := w), hunderscore]
    exact .mark .underscore
  rw [TokenKind.ofWord, if_neg hunderscore]
  cases hkeyword : Keyword.ofWord? (String.ofList w) with
  | some k =>
      rw [← String.toList_ofList (l := w), ← Keyword.ofWord?_eq_some_iff.1 hkeyword]
      exact .keyword k
  | none =>
      refine .ident hw (fun k hk => ?_) (fun h => hunderscore (congrArg String.ofList h))
      exact Keyword.ofWord?_eq_none_iff.1 hkeyword k (by rw [hk, String.ofList_toList])

/-- A word that is neither reserved nor the underscore is read as an identifier. -/
theorem TokenKind.ofWord_eq_ident {w : List Char} (hkeyword : ∀ k : Keyword, w ≠ k.text.toList)
    (hunderscore : w ≠ ['_']) : ofWord (String.ofList w) = ident (String.ofList w) := by
  have hnone : Keyword.ofWord? (String.ofList w) = none := by
    refine Keyword.ofWord?_eq_none_iff.2 fun k hk => hkeyword k ?_
    rw [hk, String.toList_ofList]
  have hne : String.ofList w ≠ "_" := fun h => hunderscore (by simpa using congrArg String.toList h)
  rw [ofWord, if_neg hne, hnone]

/-- The digits of an integer literal are what is left of it without the underscores. -/
theorem filter_isDigit {w : List Char} (hw : ∀ c ∈ w, isDigitPart c = true) :
    w.filter Char.isDigit = w.filter (· ≠ '_') := by
  refine List.filter_congr fun c hc => ?_
  by_cases hunderscore : c = '_'
  · rw [hunderscore]
    rfl
  · have hdigit : c.isDigit = true := by simpa [isDigitPart, hunderscore] using hw c hc
    simp [hdigit, hunderscore]

/-- A number has digits and underscores only. -/
theorem isDigitPart_of_mem {w : List Char} (hw : w ∈ LexicalRule.int.texts) :
    ∀ c ∈ w, isDigitPart c = true := by
  obtain ⟨c, cs, rfl, hc, hcs⟩ := mem_oneOf_mul_kstar.1 hw
  exact List.forall_mem_cons.2 ⟨isDigitPart_of_isDigit hc, hcs⟩

/-! ### Marks -/

/-- Two characters that are read as one mark spell it. -/
theorem Mark.text_of_ofPair? {c d : Char} {m : Mark} (h : ofPair? c d = some m) :
    m.text.toList = [c, d] := by
  unfold ofPair? at h
  split at h <;> first | (obtain rfl := Option.some.inj h; rfl) | exact absurd h nofun

/-- A character that is read as a mark spells it. -/
theorem Mark.text_of_ofChar? {c : Char} {m : Mark} (h : ofChar? c = some m) : m.text.toList = [c] := by
  unfold ofChar? at h
  split at h <;> first | (obtain rfl := Option.some.inj h; rfl) | exact absurd h nofun

/-- A mark of one character is read from it, unless it is read as a word. -/
theorem Mark.ofChar?_of_text {m : Mark} {c : Char} (h : m.text.toList = [c])
    (hword : isWordStart c = false) : ofChar? c = some m := by
  cases m with
  | underscore =>
      obtain rfl : '_' = c := List.singleton_inj.1 h
      exact absurd hword (by decide)
  | doubleColon | eqEq | notEq | ltEq | gtEq => exact absurd (congrArg List.length h) nofun
  | _ =>
      obtain rfl := List.singleton_inj.1 h
      rfl

/-- A mark is written with one character, or with two that are read as one mark. -/
theorem Mark.length_text_or_ofPair? (m : Mark) : m.text.toList.length = 1 ∨
    ∃ c d, m.text.toList = [c, d] ∧ ofPair? c d = some m := by
  cases m with
  | doubleColon => exact .inr ⟨':', ':', rfl, rfl⟩
  | eqEq => exact .inr ⟨'=', '=', rfl, rfl⟩
  | notEq => exact .inr ⟨'!', '=', rfl, rfl⟩
  | ltEq => exact .inr ⟨'<', '=', rfl, rfl⟩
  | gtEq => exact .inr ⟨'>', '=', rfl, rfl⟩
  | _ => exact .inl rfl

/-! ### One lexeme, by its first character -/

/-- A run of characters with a property ends before the first one without it. -/
theorem takeWhile_append_of_head {p : Char → Bool} {cs rest : List Char} (hcs : ∀ c ∈ cs, p c = true)
    (hrest : ∀ c ∈ rest.head?, p c = false) : (cs ++ rest).takeWhile p = cs := by
  rw [List.takeWhile_append_of_pos hcs, List.append_right_eq_self]
  cases rest with
  | nil => rfl
  | cons c rest => rw [List.takeWhile_cons_of_neg (by simp [hrest c rfl])]

/-- A character and the longest run of others behind it are a text of such characters. -/
theorem cons_takeWhile_mem {p q : Char → Bool} {c : Char} (hc : p c = true) (cs : List Char) :
    c :: cs.takeWhile q ∈ oneOf p * (oneOf q)∗ :=
  mem_oneOf_mul_kstar.2 ⟨c, _, rfl, hc, fun _ hd => List.mem_takeWhile_imp hd⟩

/-- To take as many characters as a run has is to take the run. -/
theorem take_length_takeWhile (p : Char → Bool) (cs : List Char) :
    cs.take (cs.takeWhile p).length = cs.takeWhile p :=
  (List.prefix_iff_eq_take.1 (List.takeWhile_prefix p)).symm

namespace Lexeme

variable {c : Char} {cs rest : List Char}

/-- Nothing else is read, so what is read need not be looked at again branch by branch. -/
theorem scans_of_scan {lexeme : Lexeme} {more : Nat} (h : scan c cs = (lexeme, more)) :
    Scans c cs lexeme more := by
  unfold scan at h
  split at h
  case isTrue hblank =>
    obtain ⟨rfl, rfl⟩ := Prod.mk.inj h
    exact .blanks hblank
  split at h
  case isTrue hslash =>
    obtain ⟨rfl, rfl⟩ := Prod.mk.inj h
    exact .comment hslash.1 hslash.2
  split at h
  case isTrue hword =>
    obtain ⟨rfl, rfl⟩ := Prod.mk.inj h
    exact .word hword
  case isFalse hword =>
    split at h
    case isTrue hdigit =>
      obtain ⟨rfl, rfl⟩ := Prod.mk.inj h
      split
      case isTrue hmax => exact .int hdigit hmax
      case isFalse hmax => exact .overflow hdigit (Nat.not_le.1 hmax)
    split at h
    case isTrue hquote =>
      unfold scanString at h
      dsimp only at h
      split at h
      case isTrue hclose =>
        obtain ⟨rfl, rfl⟩ := Prod.mk.inj h
        exact .str hquote hclose
      case isFalse =>
        obtain ⟨rfl, rfl⟩ := Prod.mk.inj h
        exact .unfinished hquote
    case isFalse hquote =>
      unfold scanMark at h
      split at h
      case h_1 m hpair =>
        obtain ⟨rfl, rfl⟩ := Prod.mk.inj h
        obtain ⟨d, hnext, hpair⟩ := Option.bind_eq_some_iff.1 hpair
        exact .pair hnext hpair
      case h_2 =>
        split at h
        case h_1 m hchar =>
          obtain ⟨rfl, rfl⟩ := Prod.mk.inj h
          exact .char hchar
        case h_2 hchar =>
          obtain ⟨rfl, rfl⟩ := Prod.mk.inj h
          exact .stray hquote (Bool.eq_false_of_not_eq_true hword) hchar

/-- A number that can be too large is still one. -/
theorem scanInt_ne_invalid (c : Char) (cs : List Char) : (scanInt c cs).1 ≠ invalid := by
  unfold scanInt
  dsimp only
  split <;> exact nofun

/-- Where a blank comes first, blanks are skipped. -/
theorem scan_of_isBlank (hc : isBlank c = true) :
    scan c cs = (skip, (cs.takeWhile isBlank).length) := by
  rw [scan, if_pos hc]

/-- Where two slashes come first, the rest of the line is skipped. -/
theorem scan_slashes (cs : List Char) :
    scan '/' ('/' :: cs) = (skip, (cs.takeWhile (· ≠ '\n')).length + 1) := by
  rw [scan, if_neg (by decide), if_pos ⟨rfl, rfl⟩, List.takeWhile_cons_of_pos (by decide),
    List.length_cons]

/-- Where a letter or an underscore comes first, a word is read. -/
theorem scan_of_isWordStart (hc : isWordStart c = true) : scan c cs = scanWord c cs := by
  obtain ⟨hblank, hslash⟩ := isBlank_ne_of_isWordPart (isWordPart_of_isWordStart hc)
  rw [scan, if_neg hblank, if_neg (fun h => hslash h.1), if_pos hc]

/-- Where a digit comes first, a number is read. -/
theorem scan_of_isDigit (hc : c.isDigit = true) : scan c cs = scanInt c cs := by
  obtain ⟨hblank, hslash⟩ := isBlank_ne_of_isWordPart (isWordPart_of_isDigit hc)
  have hword : isWordStart c ≠ true := fun h => by
    simp only [isWordStart, Char.isAlpha, Char.isUpper, Char.isLower, Char.isDigit, Bool.or_eq_true,
      Bool.and_eq_true, decide_eq_true_eq, beq_iff_eq] at h hc
    rcases h with (h | h) | rfl
    · exact absurd (UInt32.le_trans h.1 hc.2) (by decide)
    · exact absurd (UInt32.le_trans h.1 hc.2) (by decide)
    · exact absurd hc (by decide)
  rw [scan, if_neg hblank, if_neg (fun h => hslash h.1), if_neg hword, if_pos hc]

/-- Neither a blank nor the start of a word, a number or a string. -/
theorem scan_punctuation (hc : (isBlank c || isWordStart c || c.isDigit || c == '"') = false)
    (hslash : (c == '/' && cs.head? == some '/') = false) : scan c cs = scanMark c cs := by
  simp only [Bool.or_eq_false_iff, Bool.and_eq_false_iff, beq_eq_false_iff_ne] at hc hslash
  rw [scan, if_neg (by simp [hc.1.1.1]), if_neg (fun h => hslash.elim (· h.1) (· h.2)),
    if_neg (by simp [hc.1.1.2]), if_neg (by simp [hc.1.2]), if_neg hc.2]

/-- A word is read in front of anything that it does not go on with. -/
theorem scan_word (hc : isWordStart c = true) (hcs : ∀ d ∈ cs, isWordPart d = true)
    (hrest : ∀ d ∈ rest.head?, isWordPart d = false) :
    scan c (cs ++ rest) = (token (.ofWord (String.ofList (c :: cs))), cs.length) := by
  rw [scan_of_isWordStart hc, scanWord, takeWhile_append_of_head hcs hrest]

/-- A number that fits is read in front of anything that it does not go on with. -/
theorem scan_int {value : Int64} (hc : c.isDigit = true) (hcs : ∀ d ∈ cs, isDigitPart d = true)
    (hvalue : value.toInt = Decimal.value ((c :: cs).filter (· ≠ '_')))
    (hrest : ∀ d ∈ rest.head?, isDigitPart d = false) :
    scan c (cs ++ rest) = (token (.int value), cs.length) := by
  have hparts : ∀ d ∈ c :: cs, isDigitPart d = true :=
    List.forall_mem_cons.2 ⟨isDigitPart_of_isDigit hc, hcs⟩
  have hmax : Decimal.value ((c :: cs).filter Char.isDigit) ≤ maxInt := by
    have := value.toInt_lt
    rw [filter_isDigit hparts]
    unfold maxInt UInt64.size
    omega
  have heq : Int64.ofNat (Decimal.value ((c :: cs).filter Char.isDigit)) = value := by
    refine Int64.toInt_inj.1 ?_
    rw [Int64.toInt_ofNat_of_lt (by unfold maxInt UInt64.size at hmax; omega), filter_isDigit hparts,
      hvalue]
  rw [scan_of_isDigit hc, scanInt, takeWhile_append_of_head hcs hrest]
  simp only [if_pos hmax, heq]

/-- A string literal is read up to its closing quote, whatever comes after it. -/
theorem scan_string {inside value : List Char} (h : Quoted.Items inside value) (rest : List Char) :
    scan '"' (inside ++ '"' :: rest) = (token (.str (String.ofList value)), inside.length + 1) := by
  have hscan : scan '"' (inside ++ '"' :: rest) = scanString (inside ++ '"' :: rest) := rfl
  rw [hscan, scanString]
  simp [h.runLength_append, h.decode_eq]

/-- A mark is read in front of anything that does not make another token of it. -/
theorem scan_mark (m : Mark) (hrest : ∀ d ∈ rest.head?, (TokenKind.mark m).fuses d = false) :
    ∃ c cs, m.text = String.ofList (c :: cs) ∧ scan c (cs ++ rest) = (token (.mark m), cs.length) := by
  cases m with
  | underscore => exact ⟨'_', [], rfl, scan_word rfl (by simp) hrest⟩
  | slash =>
      cases rest with
      | nil => exact ⟨_, [], rfl, (scan_punctuation rfl rfl).trans rfl⟩
      | cons d rest =>
          have hd : d ≠ '/' := of_decide_eq_false (hrest d rfl)
          exact ⟨_, [], rfl, (scan_punctuation rfl (by simpa using hd)).trans rfl⟩
  | colon | eq | lt | gt =>
      refine ⟨_, [], rfl, (scan_punctuation rfl rfl).trans ?_⟩
      cases rest with
      | nil => rfl
      | cons d rest =>
          have hd : d ≠ _ := of_decide_eq_false (hrest d rfl)
          simp [scanMark, Mark.ofPair?, hd, Mark.ofChar?]
  | _ =>
      refine ⟨_, _, rfl, (scan_punctuation rfl rfl).trans ?_⟩
      cases rest <;> rfl

/-- Two characters that are one mark are read as this mark. -/
theorem scan_pair {d : Char} {m : Mark} (h : Mark.ofPair? c d = some m) :
    scan c (d :: cs) = (token (.mark m), 1) := by
  unfold Mark.ofPair? at h
  split at h
  case h_6 => exact absurd h nofun
  all_goals
    obtain rfl := Option.some.inj h
    rfl

/-! ### What is read, and what it denotes -/

/-- The text of a token is read as this token, whatever follows that does not fuse with it. -/
theorem scan_of_denotes {w : List Char} {k : TokenKind} (h : Denotes w k)
    (hrest : ∀ d ∈ rest.head?, k.fuses d = false) :
    ∃ c cs, w = c :: cs ∧ scan c (cs ++ rest) = (token k, cs.length) := by
  cases h with
  | keyword word =>
      obtain ⟨c, cs, htext, hc, hcs⟩ := mem_oneOf_mul_kstar.1 word.text_mem_ident
      refine ⟨c, cs, htext, ?_⟩
      rw [scan_word hc hcs hrest, ← htext, String.ofList_toList, word.ofWord_text]
  | mark m =>
      obtain ⟨c, cs, htext, hscan⟩ := scan_mark m hrest
      exact ⟨c, cs, by rw [htext, String.toList_ofList], hscan⟩
  | int hw hvalue =>
      obtain ⟨c, cs, rfl, hc, hcs⟩ := mem_oneOf_mul_kstar.1 hw
      exact ⟨c, cs, rfl, scan_int hc hcs hvalue hrest⟩
  | str h => exact ⟨'"', _, rfl, by simpa using scan_string h rest⟩
  | ident hw hkeyword hunderscore =>
      obtain ⟨c, cs, rfl, hc, hcs⟩ := mem_oneOf_mul_kstar.1 hw
      refine ⟨c, cs, rfl, ?_⟩
      rw [scan_word hc hcs hrest, TokenKind.ofWord_eq_ident hkeyword hunderscore]

/-- What is read as a token denotes the token. -/
theorem denotes_of_scan {k : TokenKind} {more : Nat} (h : scan c cs = (token k, more)) :
    more ≤ cs.length ∧ Denotes (c :: cs.take more) k := by
  cases scans_of_scan h with
  | word hc =>
      rw [take_length_takeWhile]
      exact ⟨(List.takeWhile_prefix _).length_le, denotes_ofWord (cons_takeWhile_mem hc cs)⟩
  | int hc hmax =>
      have hw : c :: cs.takeWhile isDigitPart ∈ LexicalRule.int.texts := cons_takeWhile_mem hc cs
      rw [take_length_takeWhile]
      refine ⟨(List.takeWhile_prefix _).length_le, .int hw ?_⟩
      rw [Int64.toInt_ofNat_of_lt (by unfold maxInt UInt64.size at hmax; omega),
        filter_isDigit (isDigitPart_of_mem hw)]
  | str hc hclose =>
      have htake : cs.take (Quoted.runLength cs + 1) = cs.take (Quoted.runLength cs) ++ ['"'] := by
        rw [List.take_add_one, ← List.head?_drop, hclose]
        rfl
      have hlength : Quoted.runLength cs < cs.length := by
        by_contra hle
        rw [List.drop_eq_nil_of_le (Nat.not_lt.1 hle)] at hclose
        exact absurd hclose nofun
      rw [htake, hc]
      exact ⟨hlength, .str (Quoted.items_take_runLength cs)⟩
  | @pair d m hnext hpair =>
      obtain ⟨cs, rfl⟩ : ∃ ds, cs = d :: ds := List.head?_eq_some_iff.1 hnext
      refine ⟨Nat.le_add_left .., ?_⟩
      rw [List.take_succ_cons, List.take_zero, ← Mark.text_of_ofPair? hpair]
      exact .mark m
  | @char m hchar =>
      refine ⟨Nat.zero_le _, ?_⟩
      rw [List.take_zero, ← Mark.text_of_ofChar? hchar]
      exact .mark m

/-- What is skipped are blanks or a comment. -/
theorem matches_of_scan_skip {more : Nat} (h : scan c cs = (skip, more)) : more ≤ cs.length ∧
    (c :: cs.take more ∈ LexicalRule.blanks.texts ∨ c :: cs.take more ∈ LexicalRule.comment.texts) := by
  cases scans_of_scan h with
  | blanks hblank =>
      rw [take_length_takeWhile]
      exact ⟨(List.takeWhile_prefix _).length_le, .inl (cons_takeWhile_mem hblank cs)⟩
  | comment hc hnext =>
      obtain ⟨cs, rfl⟩ := List.head?_eq_some_iff.1 hnext
      rw [take_length_takeWhile, List.takeWhile_cons_of_pos (by decide), hc]
      refine ⟨Nat.succ_le_succ (List.takeWhile_prefix _).length_le, .inr ?_⟩
      exact LexicalRule.mem_texts_comment.2
        ⟨_, rfl, fun d hd => by simpa using List.mem_takeWhile_imp hd⟩

/-! ### The longest match -/

/-- A run reaches at least as far as a beginning that has the property. -/
theorem length_le_takeWhile {p : Char → Bool} {u cs : List Char} (hu : ∀ d ∈ u, p d = true)
    (h : u <+: cs) : u.length ≤ (cs.takeWhile p).length := by
  obtain ⟨v, rfl⟩ := h
  rw [List.takeWhile_append_of_pos hu]
  exact (List.prefix_append _ _).length_le

/-- A text of a first character and others like it is no longer than the longest run of these. -/
theorem length_le_of_mem {p q : Char → Bool} {w : List Char} (hw : w ∈ oneOf p * (oneOf q)∗)
    (hstart : w <+: c :: cs) : p c = true ∧ w.length ≤ (cs.takeWhile q).length + 1 := by
  obtain ⟨d, u, rfl, hd, hu⟩ := mem_oneOf_mul_kstar.1 hw
  obtain ⟨rfl, htail⟩ := List.cons_prefix_cons.1 hstart
  exact ⟨hd, Nat.succ_le_succ (length_le_takeWhile hu htail)⟩

/-- Where a mark of one character stands, something can be read. -/
theorem scan_ne_invalid_of_mark {m : Mark} (hm : m.text.toList = [c]) : (scan c cs).1 ≠ invalid := by
  intro hinvalid
  obtain ⟨more, hscan⟩ : ∃ more, scan c cs = (invalid, more) := ⟨_, Prod.ext hinvalid rfl⟩
  cases scans_of_scan hscan with
  | unfinished hc =>
      rw [hc] at hm
      cases m <;> exact absurd hm (by decide)
  | stray _ hword hchar =>
      rw [Mark.ofChar?_of_text hm hword] at hchar
      cases hchar

/-- Where a text that matches a rule begins, something can be read, and it is no shorter than this text. -/
theorem scan_of_mem_texts {r : LexicalRule} {w : List Char} (hw : w ∈ r.texts)
    (hstart : w <+: c :: cs) : (scan c cs).1 ≠ invalid ∧ w.length ≤ (scan c cs).2 + 1 := by
  -- keywords are matched by the rule for words, too
  have hword : ∀ u ∈ LexicalRule.ident.texts, u <+: c :: cs →
      (scan c cs).1 ≠ invalid ∧ u.length ≤ (scan c cs).2 + 1 := by
    intro u hu hustart
    obtain ⟨hc, hlength⟩ := length_le_of_mem hu hustart
    rw [scan_of_isWordStart hc]
    exact ⟨nofun, hlength⟩
  cases r with
  | blanks =>
      obtain ⟨hc, hlength⟩ := length_le_of_mem hw hstart
      rw [scan_of_isBlank hc]
      exact ⟨nofun, hlength⟩
  | comment =>
      obtain ⟨u, rfl, hu⟩ := LexicalRule.mem_texts_comment.1 hw
      obtain ⟨rest, hrest⟩ := hstart
      rw [List.cons_append, List.cons_append] at hrest
      obtain ⟨rfl, rfl⟩ := List.cons.inj hrest
      rw [scan_slashes]
      exact ⟨nofun, Nat.succ_le_succ (Nat.succ_le_succ (length_le_takeWhile
        (fun d hd => decide_eq_true (hu d hd)) (List.prefix_append u rest)))⟩
  | keyword k =>
      obtain rfl : w = _ := hw
      exact hword _ k.text_mem_ident hstart
  | mark m =>
      obtain rfl : w = _ := hw
      rcases m.length_text_or_ofPair? with hlength | ⟨d, e, htext, hpair⟩
      · obtain ⟨d, hd⟩ := List.length_eq_one_iff.1 hlength
        rw [hd] at hstart
        obtain ⟨rfl, -⟩ := List.cons_prefix_cons.1 hstart
        rw [hlength]
        exact ⟨scan_ne_invalid_of_mark hd, Nat.le_add_left ..⟩
      · rw [htext] at hstart ⊢
        obtain ⟨rest, hrest⟩ := hstart
        rw [List.cons_append, List.singleton_append] at hrest
        obtain ⟨rfl, rfl⟩ := List.cons.inj hrest
        rw [scan_pair hpair]
        exact ⟨nofun, Nat.le_refl 2⟩
  | int =>
      obtain ⟨hc, hlength⟩ := length_le_of_mem hw hstart
      rw [scan_of_isDigit hc]
      exact ⟨scanInt_ne_invalid c cs, hlength⟩
  | str =>
      obtain ⟨inside, value, rfl, h⟩ := LexicalRule.mem_texts_str.1 hw
      obtain ⟨rest, hrest⟩ := hstart
      rw [List.append_assoc, List.cons_append, List.singleton_append] at hrest
      obtain ⟨rfl, rfl⟩ := List.cons.inj hrest
      rw [scan_string h]
      exact ⟨nofun, by simp⟩
  | ident => exact hword w hw hstart

/-- What is read at a place, a token or what is skipped, is the longest match there. -/
theorem longestMatch_of_mem_texts {r : LexicalRule} {lexeme : Lexeme} {more : Nat}
    (hscan : scan c cs = (lexeme, more)) (hmore : more ≤ cs.length)
    (hmatch : c :: cs.take more ∈ r.texts) : LongestMatch (c :: cs.take more) (cs.drop more) := by
  refine ⟨⟨r, hmatch⟩, fun r' w hw hstart => ?_⟩
  rw [List.cons_append, List.take_append_drop] at hstart
  have hle := (scan_of_mem_texts hw hstart).2
  rw [hscan] at hle
  rwa [List.length_cons, List.length_take, Nat.min_eq_left hmore]

end Lexeme

/-- The text of a token matches a rule. -/
theorem Denotes.exists_mem_texts {w : List Char} {k : TokenKind} (h : Denotes w k) :
    ∃ r : LexicalRule, w ∈ r.texts := by
  cases h with
  | keyword word => exact ⟨.keyword word, rfl⟩
  | mark m => exact ⟨.mark m, rfl⟩
  | int hw => exact ⟨.int, hw⟩
  | str h => exact ⟨.str, LexicalRule.mem_texts_str.2 ⟨_, _, rfl, h⟩⟩
  | ident hw => exact ⟨.ident, hw⟩

/-- The text of a token and a character that fuses with it match a rule. -/
theorem Denotes.exists_append_mem_texts {w : List Char} {k : TokenKind} {d : Char} (h : Denotes w k)
    (hd : k.fuses d = true) : ∃ r : LexicalRule, w ++ [d] ∈ r.texts := by
  have happend : ∀ {p q : Char → Bool}, q d = true → w ∈ oneOf p * (oneOf q)∗ →
      w ++ [d] ∈ oneOf p * (oneOf q)∗ := by
    intro p q hq hw
    obtain ⟨c, cs, rfl, hc, hcs⟩ := mem_oneOf_mul_kstar.1 hw
    exact mem_oneOf_mul_kstar.2 ⟨c, cs ++ [d], rfl, hc, List.forall_mem_append.2 ⟨hcs, by simpa⟩⟩
  cases h with
  | keyword word => exact ⟨.ident, happend hd word.text_mem_ident⟩
  | mark m =>
      cases m with
      | underscore =>
          exact ⟨.ident, happend hd (LexicalRule.mem_texts_ident.2 ⟨'_', [], rfl, rfl, by simp⟩)⟩
      | colon => exact ⟨.mark .doubleColon, by rw [of_decide_eq_true hd]; rfl⟩
      | eq => exact ⟨.mark .eqEq, by rw [of_decide_eq_true hd]; rfl⟩
      | lt => exact ⟨.mark .ltEq, by rw [of_decide_eq_true hd]; rfl⟩
      | gt => exact ⟨.mark .gtEq, by rw [of_decide_eq_true hd]; rfl⟩
      | slash =>
          rw [of_decide_eq_true hd]
          exact ⟨.comment, LexicalRule.mem_texts_comment.2 ⟨[], rfl, by simp⟩⟩
      | _ => exact absurd hd nofun
  | int hw => exact ⟨.int, happend hd hw⟩
  | str => exact absurd hd nofun
  | ident hw => exact ⟨.ident, happend hd hw⟩

namespace LongestMatch

variable {w rest : List Char}

/-- No text that is longer by one character matches a rule. -/
theorem append_not_mem_texts (h : LongestMatch w rest) {d : Char} (hd : d ∈ rest.head?)
    (r : LexicalRule) : w ++ [d] ∉ r.texts := by
  intro hr
  obtain ⟨rest, rfl⟩ := List.head?_eq_some_iff.1 hd
  have hle := h.2 r _ hr ⟨rest, by simp⟩
  rw [List.length_append] at hle
  exact absurd hle (Nat.not_succ_le_self _)

/-- Nothing that fuses with a token follows a longest match that denotes the token. -/
theorem fuses_eq_false (h : LongestMatch w rest) {k : TokenKind} (hk : Denotes w k) :
    ∀ d ∈ rest.head?, k.fuses d = false := by
  intro d hd
  by_contra hfuses
  obtain ⟨r, hr⟩ := hk.exists_append_mem_texts (Bool.not_eq_false _ ▸ hfuses)
  exact h.append_not_mem_texts hd r hr

/-- After a comment that is a longest match, the line or the text ends. -/
theorem eq_line_feed (h : LongestMatch w rest) (hw : w ∈ LexicalRule.comment.texts) :
    ∀ d ∈ rest.head?, d = '\n' := by
  intro d hd
  by_contra hline
  obtain ⟨cs, rfl, hcs⟩ := LexicalRule.mem_texts_comment.1 hw
  refine h.append_not_mem_texts hd .comment (LexicalRule.mem_texts_comment.2 ⟨cs ++ [d], rfl, ?_⟩)
  exact List.forall_mem_append.2 ⟨hcs, by simpa⟩

end LongestMatch

end Freshen
