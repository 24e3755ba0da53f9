import QueryAlgebra.Iri
import Mathlib.Data.List.TakeWhile

/-! # What relative IRIs resolve to

An IRI is absolute if it begins with a scheme. Whatever is put behind a part of an absolute base,
the part begins with the scheme of the base, so the result is absolute.

A base with an authority is cut after the authority as a rule, and then the result has the scheme
and the authority of the base. It is cut inside the authority only if a relative path is put behind
the last slash or colon and there is none after the authority: `resolve?_keeps_origin`.
-/

namespace QueryAlgebra.Iri

/-- A text begins with a scheme and a colon. -/
def BeginsWithScheme (text : List Char) : Prop :=
  ∃ first scheme rest, text = first :: scheme ++ ':' :: rest ∧ first.isAlpha = true
    ∧ ∀ c ∈ scheme, isSchemeChar c = true ∧ c ≠ ':'

private theorem hasColonAfterScheme_iff {text : List Char} :
    hasColonAfterScheme text = true
      ↔ ∃ scheme rest, text = scheme ++ ':' :: rest
        ∧ ∀ c ∈ scheme, isSchemeChar c = true ∧ c ≠ ':' := by
  induction text with
  | nil => simp [hasColonAfterScheme]
  | cons c rest ih =>
    rw [hasColonAfterScheme, Bool.or_eq_true, Bool.and_eq_true, beq_iff_eq, ih]
    constructor
    · rintro (rfl | ⟨schemeChar, scheme, after, rfl, chars⟩)
      · exact ⟨[], rest, rfl, by simp⟩
      · by_cases colon : c = ':'
        · exact ⟨[], scheme ++ ':' :: after, by rw [colon]; rfl, by simp⟩
        · exact ⟨c :: scheme, after, rfl, List.forall_mem_cons.2 ⟨⟨schemeChar, colon⟩, chars⟩⟩
    · rintro ⟨scheme, after, same, chars⟩
      cases scheme with
      | nil => exact .inl (List.cons.inj same).1
      | cons first scheme =>
        obtain ⟨rfl, rfl⟩ := List.cons.inj same
        rw [List.forall_mem_cons] at chars
        exact .inr ⟨chars.1.1, scheme, after, rfl, chars.2⟩

theorem isAbsoluteText_iff {text : List Char} :
    isAbsoluteText text = true ↔ BeginsWithScheme text := by
  cases text with
  | nil => simp [isAbsoluteText, BeginsWithScheme]
  | cons c rest =>
    rw [isAbsoluteText, Bool.and_eq_true, hasColonAfterScheme_iff]
    constructor
    · rintro ⟨alpha, scheme, after, rfl, chars⟩
      exact ⟨c, scheme, after, rfl, alpha, chars⟩
    · rintro ⟨first, scheme, after, same, alpha, chars⟩
      obtain ⟨rfl, rfl⟩ := List.cons.inj same
      exact ⟨alpha, scheme, after, rfl, chars⟩

namespace BeginsWithScheme

variable {text : List Char}

theorem append (begins : BeginsWithScheme text) (more : List Char) :
    BeginsWithScheme (text ++ more) := by
  obtain ⟨first, scheme, rest, rfl, alpha, chars⟩ := begins
  exact ⟨first, scheme, rest ++ more, by simp, alpha, chars⟩

/-- Texts up to a character that no scheme has begin with the scheme. -/
theorem takeWhile (begins : BeginsWithScheme text) {stop : Char → Bool}
    (passes : ∀ c, isSchemeChar c = true ∨ c = ':' → stop c = true) :
    BeginsWithScheme (text.takeWhile stop) := by
  obtain ⟨first, scheme, rest, rfl, alpha, chars⟩ := begins
  have ofFirst : isSchemeChar first = true := by simp [isSchemeChar, Char.isAlphanum, alpha]
  have ofScheme : ∀ c ∈ first :: scheme ++ [':'], stop c = true := by
    intro c mem
    rcases List.mem_append.1 mem with inScheme | isColon
    · rcases List.mem_cons.1 inScheme with rfl | inScheme
      · exact passes _ (.inl ofFirst)
      · exact passes c (.inl (chars c inScheme).1)
    · exact passes c (.inr (List.mem_singleton.1 isColon))
  have split : first :: scheme ++ ':' :: rest = (first :: scheme ++ [':']) ++ rest := by simp
  rw [split, List.takeWhile_append_of_pos ofScheme]
  exact ⟨first, scheme, rest.takeWhile stop, by simp, alpha, chars⟩

/-- What is left of a text up to its last slash or colon begins with the scheme. -/
theorem upToLastSeparator (begins : BeginsWithScheme text) :
    BeginsWithScheme (upToLastSeparator text) := by
  obtain ⟨first, scheme, rest, rfl, alpha, chars⟩ := begins
  have reversed : (first :: scheme ++ ':' :: rest).reverse
      = rest.reverse ++ ':' :: (first :: scheme).reverse := by simp
  rw [Iri.upToLastSeparator, reversed, List.dropWhile_append]
  split
  · refine ⟨first, scheme, [], ?_, alpha, chars⟩
    simp [List.dropWhile]
  · rename_i remains
    refine ⟨first, scheme, (rest.reverse.dropWhile fun c => !(c == '/' || c == ':')).reverse, ?_,
      alpha, chars⟩
    simp

/-- The scheme and authority of a base begin with its scheme. -/
theorem root (begins : BeginsWithScheme text) : BeginsWithScheme (root text) := by
  have notSlash : ∀ c, isSchemeChar c = true ∨ c = ':' → (c != '/') = true := by
    rintro c (schemeChar | rfl)
    · rw [bne_iff_ne]
      rintro rfl
      exact absurd schemeChar (by decide)
    · rfl
  rw [Iri.root, splitScheme]
  split
  rename_i scheme rest split
  split at split
  · rename_i head tail after lower _
    obtain ⟨rfl, rfl⟩ := Prod.ext_iff.1 split
    have isLower : ∀ c ∈ head :: tail, c.isLower = true := by
      rw [← lower]
      exact fun c mem => List.mem_takeWhile_imp mem
    have isAlpha : ∀ c ∈ head :: tail, c.isAlpha = true := by
      intro c mem
      show (c.isUpper || c.isLower) = true
      rw [isLower c mem, Bool.or_true]
    rw [lower]
    refine ⟨head, tail, _, by rw [List.append_assoc, List.cons_append]; rfl,
      isAlpha head (List.mem_cons_self ..), fun c mem => ?_⟩
    have inAll := List.mem_cons_of_mem head mem
    refine ⟨by simp [isSchemeChar, Char.isAlphanum, isAlpha c inAll], ?_⟩
    rintro rfl
    exact absurd (isLower _ inAll) (by decide)
  · cases split
    exact begins.takeWhile notSlash

end BeginsWithScheme

/-- What an IRI resolves to is absolute, whether there is no base or an absolute one. -/
theorem isAbsolute_of_resolve? {base : Option String} {iri resolved : String}
    (absolute : ∀ text, base = some text → isAbsolute text = true)
    (resolves : resolve? base iri = some resolved) : isAbsolute resolved = true := by
  rw [resolve?] at resolves
  split at resolves
  · rwa [← Option.some.inj resolves]
  · obtain ⟨text, isBase, rfl⟩ := Option.map_eq_some_iff.1 resolves
    have begins := isAbsoluteText_iff.1 (absolute text isBase)
    have notQuery : ∀ c, isSchemeChar c = true ∨ c = ':' → (c != '?') = true := by
      rintro c (schemeChar | rfl)
      · rw [bne_iff_ne]
        rintro rfl
        exact absurd schemeChar (by decide)
      · rfl
    rw [isAbsolute, String.toList_ofList, isAbsoluteText_iff]
    unfold resolveText
    split
    · exact begins
    · exact begins.append _
    · exact (begins.takeWhile notQuery).append _
    · exact begins.root.append _
    · exact begins.upToLastSeparator.append _

/-! ### Scheme and authority -/

/-- Whether a text may follow an authority: it is empty, or it begins a path, a query or a
fragment. -/
def followsAuthority : List Char → Bool
  | [] => true
  | c :: _ => c == '/' || c == '?' || c == '#'

/-- A scheme and an authority. -/
structure Origin where
  scheme : List Char
  authority : List Char
  isScheme : isAbsoluteText (scheme ++ [':']) = true ∧ ':' ∉ scheme
  hasAuthority : authority ≠ []
  undelimited : ∀ c ∈ authority, c ≠ '/' ∧ c ≠ '?' ∧ c ≠ '#'

namespace Origin

/-- The text of a scheme and an authority. -/
def text (origin : Origin) : List Char := origin.scheme ++ ':' :: '/' :: '/' :: origin.authority

/-- What is written after the last colon of the authority, which is all of it if there is none. -/
def afterColon (origin : Origin) : List Char :=
  (origin.authority.reverse.takeWhile (· != ':')).reverse

/-- A text begins with this scheme and this authority, and not with a longer authority. -/
def Begins (origin : Origin) (text : List Char) : Prop :=
  ∃ rest, text = origin.text ++ rest ∧ followsAuthority rest = true

end Origin

theorem followsAuthority_append {rest more : List Char} (first : followsAuthority rest = true)
    (second : followsAuthority more = true) : followsAuthority (rest ++ more) = true := by
  cases rest with
  | nil => exact second
  | cons c rest => exact first

theorem followsAuthority_takeWhile {rest : List Char} (follows : followsAuthority rest = true)
    (stop : Char → Bool) : followsAuthority (rest.takeWhile stop) = true := by
  cases rest with
  | nil => rfl
  | cons c rest =>
    rw [List.takeWhile_cons]
    split
    · exact follows
    · rfl

theorem upToLastSeparator_append (before : List Char) {after : List Char}
    (separated : ∃ c ∈ after, c = '/' ∨ c = ':') :
    upToLastSeparator (before ++ after) = before ++ upToLastSeparator after := by
  obtain ⟨c, inAfter, isSeparator⟩ := separated
  have remains : (after.reverse.dropWhile fun c => !(c == '/' || c == ':')) ≠ [] := by
    intro none
    rw [List.dropWhile_eq_nil_iff] at none
    have := none c (List.mem_reverse.2 inAfter)
    rcases isSeparator with rfl | rfl <;> exact absurd this (by decide)
  have kept : ¬ ((after.reverse.dropWhile fun c => !(c == '/' || c == ':')).isEmpty = true) := by
    simpa using remains
  rw [upToLastSeparator, List.reverse_append, List.dropWhile_append, if_neg kept,
    List.reverse_append, List.reverse_reverse]
  rfl

theorem upToLastSeparator_append_of_forall (before : List Char) {after : List Char}
    (none : ∀ c ∈ after, c ≠ '/' ∧ c ≠ ':') :
    upToLastSeparator (before ++ after) = upToLastSeparator before := by
  have dropped : ∀ c ∈ after.reverse, (fun c => !(c == '/' || c == ':')) c = true := by
    intro c mem
    have := none c (List.mem_reverse.1 mem)
    simp [this.1, this.2]
  rw [upToLastSeparator, List.reverse_append, List.dropWhile_append_of_pos dropped]
  rfl

/-- Cutting a text behind its last slash or colon leaves its first character. -/
theorem followsAuthority_upToLastSeparator {rest : List Char}
    (follows : followsAuthority rest = true) (separated : ∃ c ∈ rest, c = '/' ∨ c = ':')
    (more : List Char) : followsAuthority (upToLastSeparator rest ++ more) = true := by
  obtain ⟨c, mem, isSeparator⟩ := separated
  cases rest with
  | nil => cases mem
  | cons first others =>
    rw [← List.singleton_append]
    by_cases later : ∃ c ∈ others, c = '/' ∨ c = ':'
    · rw [upToLastSeparator_append [first] later]
      exact follows
    · have unseparated : ∀ c ∈ others, c ≠ '/' ∧ c ≠ ':' :=
        fun c mem => not_or.1 fun isSeparator => later ⟨c, mem, isSeparator⟩
      have atFirst : first = '/' ∨ first = ':' := by
        rcases List.mem_cons.1 mem with rfl | mem
        · exact isSeparator
        · exact absurd ⟨c, mem, isSeparator⟩ later
      have kept : upToLastSeparator [first] = [first] := by
        rcases atFirst with rfl | rfl <;> rfl
      rw [upToLastSeparator_append_of_forall [first] unseparated, kept]
      exact follows

private theorem isSchemeChar_of_hasColonAfterScheme {scheme : List Char} (noColon : ':' ∉ scheme)
    (scanned : hasColonAfterScheme (scheme ++ [':']) = true) :
    ∀ c ∈ scheme, isSchemeChar c = true := by
  induction scheme with
  | nil => exact List.forall_mem_nil _
  | cons c rest ih =>
    rw [List.mem_cons, not_or] at noColon
    rw [List.cons_append, hasColonAfterScheme, Bool.or_eq_true, beq_iff_eq,
      Bool.and_eq_true] at scanned
    obtain ⟨isChar, scanned⟩ := scanned.resolve_left (Ne.symm noColon.1)
    exact List.forall_mem_cons.2 ⟨isChar, ih noColon.2 scanned⟩

namespace Origin

theorem scheme_ne_nil (origin : Origin) : origin.scheme ≠ [] := by
  intro none
  have := origin.isScheme.1
  rw [none] at this
  exact absurd this (by decide)

theorem isSchemeChar_of_mem (origin : Origin) : ∀ c ∈ origin.scheme, isSchemeChar c = true := by
  obtain ⟨scheme, authority, ⟨scanned, noColon⟩, -, -⟩ := origin
  cases scheme with
  | nil => exact List.forall_mem_nil _
  | cons first others =>
    rw [List.cons_append, isAbsoluteText, Bool.and_eq_true] at scanned
    rw [List.mem_cons, not_or] at noColon
    have ofFirst : isSchemeChar first = true := by simp [isSchemeChar, Char.isAlphanum, scanned.1]
    exact List.forall_mem_cons.2
      ⟨ofFirst, isSchemeChar_of_hasColonAfterScheme noColon.2 scanned.2⟩

/-- The text of a scheme and an authority has no question mark. -/
theorem ne_query_of_mem (origin : Origin) : ∀ c ∈ origin.text, (c != '?') = true := by
  intro c mem
  rw [bne_iff_ne]
  rintro rfl
  rcases List.mem_append.1 mem with inScheme | mem
  · exact absurd (origin.isSchemeChar_of_mem _ inScheme) (by decide)
  · simp only [List.mem_cons, Char.reduceEq, false_or] at mem
    exact (origin.undelimited _ mem).2.1 rfl

/-- The root of a base whose scheme has small letters alone is its scheme and authority, and what
follows these up to the next slash. -/
theorem root_append (origin : Origin) (small : ∀ c ∈ origin.scheme, c.isLower = true)
    (rest : List Char) :
    root (origin.text ++ rest) = origin.text ++ rest.takeWhile (· != '/') := by
  obtain ⟨first, others, isCons⟩ := List.exists_cons_of_ne_nil origin.scheme_ne_nil
  obtain ⟨host, more, isHost⟩ := List.exists_cons_of_ne_nil origin.hasAuthority
  have noSlash : ∀ c ∈ origin.authority, (c != '/') = true :=
    fun c mem => bne_iff_ne.2 (origin.undelimited c mem).1
  have hostNoSlash : (host == '/') = false :=
    beq_eq_false_iff_ne.2 (origin.undelimited host (isHost ▸ List.mem_cons_self ..)).1
  have taken : (origin.text ++ rest).takeWhile Char.isLower = origin.scheme := by
    rw [text, List.append_assoc, List.takeWhile_append_of_pos small]
    simp
  have dropped : (origin.text ++ rest).dropWhile Char.isLower
      = ':' :: '/' :: '/' :: (origin.authority ++ rest) := by
    rw [text, List.append_assoc, List.dropWhile_append_of_pos small]
    simp
  have split : splitScheme (origin.text ++ rest)
      = (origin.scheme ++ [':', '/', '/'], origin.authority ++ rest) := by
    rw [splitScheme, taken, dropped, isCons, isHost]
    simp [hostNoSlash]
  rw [root, split]
  simp only [List.takeWhile_append_of_pos noSlash, text, List.append_assoc, List.cons_append,
    List.nil_append]

/-- What is left of a scheme and an authority up to the last slash or colon lacks what is written
after the last colon of the authority. -/
theorem upToLastSeparator_text (origin : Origin) :
    upToLastSeparator origin.text ++ origin.afterColon = origin.text := by
  obtain ⟨kept, isKept⟩ : ∃ kept,
      kept = (origin.authority.reverse.dropWhile (· != ':')).reverse := ⟨_, rfl⟩
  have split : origin.authority = kept ++ origin.afterColon := by
    rw [isKept, afterColon, ← List.reverse_append, List.takeWhile_append_dropWhile,
      List.reverse_reverse]
  have plain : ∀ c ∈ origin.afterColon, c ≠ '/' ∧ c ≠ ':' := by
    intro c mem
    refine ⟨(origin.undelimited c (split ▸ List.mem_append_right _ mem)).1, ?_⟩
    rw [afterColon, List.mem_reverse] at mem
    have passed := List.mem_takeWhile_imp mem
    exact bne_iff_ne.1 passed
  have endsInSeparator : ∃ before c, origin.scheme ++ ':' :: '/' :: '/' :: kept = before ++ [c]
      ∧ (c = '/' ∨ c = ':') := by
    cases remains : origin.authority.reverse.dropWhile (· != ':') with
    | nil =>
      rw [isKept, remains]
      exact ⟨origin.scheme ++ [':', '/'], '/', by simp, .inl rfl⟩
    | cons c others =>
      have isColon : c = ':' := by
        simpa [remains] using List.head?_dropWhile_not (· != ':') origin.authority.reverse
      rw [isKept, remains]
      exact ⟨origin.scheme ++ ':' :: '/' :: '/' :: others.reverse, c, by simp, .inr isColon⟩
  obtain ⟨before, c, ends, isSeparator⟩ := endsInSeparator
  have whole : origin.text = (before ++ [c]) ++ origin.afterColon := by
    rw [← ends, text, split]
    simp
  have kept : upToLastSeparator (before ++ [c]) = before ++ [c] := by
    rw [upToLastSeparator_append before ⟨c, List.mem_singleton_self c, isSeparator⟩]
    rcases isSeparator with rfl | rfl <;> rfl
  rw [whole, upToLastSeparator_append_of_forall _ plain, kept]

theorem begins_append (origin : Origin) {rest reference : List Char}
    (follows : followsAuthority rest = true) (goesOn : followsAuthority reference = true) :
    origin.Begins (origin.text ++ rest ++ reference) :=
  ⟨rest ++ reference, List.append_assoc .., followsAuthority_append follows goesOn⟩

theorem begins_of_separated (origin : Origin) {rest : List Char} (reference : List Char)
    (follows : followsAuthority rest = true) (separated : ∃ c ∈ rest, c = '/' ∨ c = ':') :
    origin.Begins (upToLastSeparator (origin.text ++ rest) ++ reference) := by
  rw [upToLastSeparator_append origin.text separated, List.append_assoc]
  exact ⟨_, rfl, followsAuthority_upToLastSeparator follows separated reference⟩

/-- A base with neither slash nor colon after its authority loses what is written there behind the
last colon, so that the reference has to bring it along. -/
theorem begins_iff_of_not_separated (origin : Origin) {rest : List Char} (reference : List Char)
    (unseparated : ∀ c ∈ rest, c ≠ '/' ∧ c ≠ ':') :
    origin.Begins (upToLastSeparator (origin.text ++ rest) ++ reference)
      ↔ ∃ more, reference = origin.afterColon ++ more ∧ followsAuthority more = true := by
  rw [upToLastSeparator_append_of_forall origin.text unseparated, Begins]
  refine exists_congr fun more => and_congr_left fun _ => ?_
  have whole : origin.text ++ more
      = upToLastSeparator origin.text ++ (origin.afterColon ++ more) := by
    rw [← List.append_assoc, origin.upToLastSeparator_text]
  rw [whole, List.append_right_inj]

end Origin

/-- **Relative references keep scheme and authority.** Against a base with a scheme and an authority
every relative reference resolves. The result has the same scheme and authority if the reference is
empty, a query or a fragment, and if it begins with a slash and the scheme has small letters alone.
A relative path goes behind the last slash or colon of the base; so scheme and authority stay
exactly if there is one after the authority, or if the reference begins with what is cut off. -/
theorem resolve?_keeps_origin (origin : Origin) {base reference : String} {rest : List Char}
    (isBase : base.toList = origin.text ++ rest) (follows : followsAuthority rest = true)
    (relative : isAbsolute reference = false) :
    ∃ resolved, resolve? (some base) reference = some resolved
      ∧ match reference.toList with
        | [] | '#' :: _ | '?' :: _ => origin.Begins resolved.toList
        | '/' :: _ => (∀ c ∈ origin.scheme, c.isLower = true) → origin.Begins resolved.toList
        | written => origin.Begins resolved.toList ↔ ('/' ∈ rest ∨ ':' ∈ rest)
            ∨ ∃ more, written = origin.afterColon ++ more ∧ followsAuthority more = true := by
  refine ⟨_, by rw [resolve?, relative]; rfl, ?_⟩
  rw [String.toList_ofList, isBase]
  generalize reference.toList = written
  split
  · exact ⟨rest, rfl, follows⟩
  · exact origin.begins_append follows rfl
  · rename_i query
    have kept : resolveText (origin.text ++ rest) ('?' :: query)
        = origin.text ++ rest.takeWhile (· != '?') ++ '?' :: query := by
      rw [← List.takeWhile_append_of_pos origin.ne_query_of_mem]
      rfl
    rw [kept]
    exact origin.begins_append (followsAuthority_takeWhile follows _) rfl
  · rename_i path
    intro small
    have kept : resolveText (origin.text ++ rest) ('/' :: path)
        = origin.text ++ rest.takeWhile (· != '/') ++ '/' :: path := by
      rw [← origin.root_append small]
      rfl
    rw [kept]
    exact origin.begins_append (followsAuthority_takeWhile follows _) rfl
  · rename_i notEmpty notFragment notQuery notPath
    have kept : resolveText (origin.text ++ rest) written
        = upToLastSeparator (origin.text ++ rest) ++ written := by
      unfold resolveText
      split <;> simp_all
    rw [kept]
    by_cases separated : ∃ c ∈ rest, c = '/' ∨ c = ':'
    · refine iff_of_true (origin.begins_of_separated written follows separated) (.inl ?_)
      obtain ⟨c, mem, rfl | rfl⟩ := separated
      · exact .inl mem
      · exact .inr mem
    · have unseparated : ∀ c ∈ rest, c ≠ '/' ∧ c ≠ ':' := by
        intro c mem
        exact not_or.1 fun isSeparator => separated ⟨c, mem, isSeparator⟩
      have noSeparator : ¬ ('/' ∈ rest ∨ ':' ∈ rest) := by
        rintro (mem | mem)
        · exact (unseparated _ mem).1 rfl
        · exact (unseparated _ mem).2 rfl
      rw [origin.begins_iff_of_not_separated written unseparated, or_iff_right noSeparator]

/-- The scheme and authority `http://ex.org`. -/
private def exampleOrigin : Origin :=
  ⟨"http".toList, "ex.org".toList, by decide, by decide, by simp⟩

/-- `x` against `http://ex.org?a/b` is `http://ex.org?a/x`. -/
theorem resolve?_keeps_origin_separatedQuery :
    "http://ex.org?a/b".toList = exampleOrigin.text ++ "?a/b".toList
      ∧ followsAuthority "?a/b".toList = true ∧ isAbsolute "x" = false
      ∧ resolve? (some "http://ex.org?a/b") "x" = some "http://ex.org?a/x"
      ∧ exampleOrigin.Begins "http://ex.org?a/x".toList := by
  have isBase : "http://ex.org?a/b".toList = exampleOrigin.text ++ "?a/b".toList := by decide
  have follows : followsAuthority "?a/b".toList = true := by decide
  have relative : isAbsolute "x" = false := by decide
  have resolves : resolve? (some "http://ex.org?a/b") "x" = some "http://ex.org?a/x" := by decide
  obtain ⟨resolved, same, keeps⟩ := resolve?_keeps_origin exampleOrigin isBase follows relative
  obtain rfl := Option.some.inj (same.symm.trans resolves)
  exact ⟨isBase, follows, relative, resolves, keeps.2 (.inl (.inl (by decide)))⟩

/-- `x` against `http://ex.org` is `http://x`: the base is cut behind its last slash, which stands
before the authority. -/
theorem not_keeps_origin_bareAuthority :
    "http://ex.org".toList = exampleOrigin.text ++ [] ∧ followsAuthority [] = true
      ∧ isAbsolute "x" = false ∧ ¬ ['/', '/'] <+: "x".toList
      ∧ resolve? (some "http://ex.org") "x" = some "http://x"
      ∧ ¬ exampleOrigin.Begins "http://x".toList := by
  refine ⟨by decide, rfl, by decide, by decide, by decide, ?_⟩
  rintro ⟨rest, same, -⟩
  have isPrefix : exampleOrigin.text <+: "http://x".toList := ⟨rest, same.symm⟩
  exact absurd isPrefix (by decide)

end QueryAlgebra.Iri
