import ClassTemplates.Proofs.Template.Tokens

/-!
# Tokens as matches of a pattern

A pattern is a sequence of pieces: fixed words, and runs of characters of a class. It may match at
the front of a text in more than one way. These ways have an order of preference, in which earlier
pieces come before later ones, a greedy run would rather take more characters and a lazy one fewer.
The token at the front of a text is the preferred match of one pattern.

## Main definitions

- `Piece`, `Piece.ways` — a piece of a pattern, and the ways in which it matches
- `Pattern.ways` — the ways in which a pattern matches, the preferred one first
- `Token.pattern` — the pattern of tokens

## Main results

- `Token.head?_ways_pattern` — the preferred match of the pattern is the token
-/

namespace ClassTemplates

/-- A piece of a pattern. -/
inductive Piece
  /-- The given characters. -/
  | word (xs : List Char)
  /-- One or more characters of a class, rather more of them than fewer. -/
  | greedy (q : Char → Bool)
  /-- One or more characters of a class, rather fewer of them than more. -/
  | lazy (q : Char → Bool)

namespace Piece

/-- The ways to take one or more characters of a class off the front of others, the shortest first:
what is taken, and what is left. -/
def runs (q : Char → Bool) : List Char → List (List Char × List Char)
  | [] => []
  | c :: cs => if q c then ([c], cs) :: (runs q cs).map fun way => (c :: way.1, way.2) else []

/-- The ways in which a piece matches at the front of characters, the preferred one first. -/
def ways : Piece → List Char → List (List Char × List Char)
  | word xs, cs => (Token.dropStart? xs cs).toList.map (xs, ·)
  | greedy q, cs => (runs q cs).reverse
  | lazy q, cs => runs q cs

variable {β : Type} {q : Char → Bool} {f : List Char → List Char → Option β} {c : Char}
  {cs : List Char}

theorem runs_of_pos (h : q c = true) :
    runs q (c :: cs) = ([c], cs) :: (runs q cs).map fun way => (c :: way.1, way.2) :=
  if_pos h

theorem runs_of_neg (h : ¬q c = true) : runs q (c :: cs) = [] :=
  if_neg h

theorem findSome?_runs_cons (h : q c = true) :
    (runs q (c :: cs)).findSome? (fun way => f way.1 way.2) =
      (f [c] cs).or ((runs q cs).findSome? fun way => f (c :: way.1) way.2) := by
  rw [runs_of_pos h, List.findSome?_cons, List.findSome?_map]
  cases f [c] cs <;> rfl

/-- If nothing comes of a run that stops in front of a character of its class, a greedy run takes
all there are. -/
theorem findSome?_reverse_runs (hf : ∀ taken c rest, q c = true → f taken (c :: rest) = none) :
    (runs q cs).reverse.findSome? (fun way => f way.1 way.2) =
      if cs.takeWhile q = [] then none else f (cs.takeWhile q) (cs.dropWhile q) := by
  induction cs generalizing f with
  | nil => rfl
  | cons c cs ih =>
    by_cases hc : q c = true
    · rw [runs_of_pos hc, List.reverse_cons, List.findSome?_append, ← List.map_reverse,
        List.findSome?_map, List.takeWhile_cons_of_pos hc, List.dropWhile_cons_of_pos hc,
        if_neg (List.cons_ne_nil _ _)]
      have hmore := ih (f := fun taken rest => f (c :: taken) rest)
        fun taken d rest hd => hf (c :: taken) d rest hd
      simp only [Function.comp_def, hmore]
      cases cs with
      | nil => simp
      | cons d ds =>
        by_cases hd : q d = true
        · simp [hd, hf [c] d ds hd]
        · simp [hd]
    · rw [runs_of_neg hc, List.takeWhile_cons_of_neg hc]
      rfl

/-- If something comes of a run exactly when it stops in front of one character, a lazy run, which
here need not take any characters, takes those in front of the first such character. -/
theorem findSome?_runs {m : Char} (hnil : ∀ taken, f taken [] = none)
    (hother : ∀ taken c rest, c ≠ m → f taken (c :: rest) = none)
    (hmark : ∀ taken rest, (f taken (m :: rest)).isSome = true) :
    (f [] cs).or ((runs q cs).findSome? fun way => f way.1 way.2) =
      f (cs.takeWhile fun c => c != m && q c) (cs.dropWhile fun c => c != m && q c) := by
  induction cs generalizing f with
  | nil => simp [runs]
  | cons c cs ih =>
    by_cases hm : c = m
    · subst hm
      obtain ⟨b, hb⟩ := Option.isSome_iff_exists.1 (hmark [] cs)
      simp [hb]
    · rw [hother [] c cs hm, Option.none_or]
      by_cases hc : q c = true
      · have hmore := ih (f := fun taken rest => f (c :: taken) rest)
          (fun taken => hnil (c :: taken)) (fun taken => hother (c :: taken))
          (fun taken => hmark (c :: taken))
        have htake : (c != m && q c) = true := by simp [hm, hc]
        simp only [List.takeWhile_cons, List.dropWhile_cons, htake, if_true, ← hmore]
        exact findSome?_runs_cons hc
      · have htake : (c != m && q c) = false := by simp [hc]
        simp only [List.takeWhile_cons, List.dropWhile_cons, htake]
        rw [runs_of_neg hc]
        exact (hother [] c cs hm).symm

end Piece

namespace Pattern

/-- The ways in which a pattern matches at the front of characters, the preferred one first: what
each piece takes, and what is left. -/
def ways : List Piece → List Char → List (List (List Char) × List Char)
  | [], cs => [([], cs)]
  | p :: ps, cs => (p.ways cs).flatMap fun way =>
      (ways ps way.2).map fun others => (way.1 :: others.1, others.2)

/-- What has been taken, with what the preferred match of further pieces takes behind it. -/
def extend? (ps : List Piece) (taken rest : List Char) : Option (List (List Char) × List Char) :=
  (ways ps rest).head?.map fun others => (taken :: others.1, others.2)

theorem head?_ways_cons (p : Piece) (ps : List Piece) (cs : List Char) :
    (ways (p :: ps) cs).head? = (p.ways cs).findSome? fun way => extend? ps way.1 way.2 := by
  simp [ways, extend?, List.head?_flatMap, List.head?_map]

theorem head?_ways_word (xs : List Char) (ps : List Piece) (cs : List Char) :
    (ways (.word xs :: ps) cs).head? = (Token.dropStart? xs cs).bind (extend? ps xs) := by
  rw [head?_ways_cons, Piece.ways]
  cases Token.dropStart? xs cs <;> simp

variable {x c : Char} {ps : List Piece} {taken rest : List Char}

theorem extend?_word_nil : extend? (.word [x] :: ps) taken [] = none := by
  rw [extend?, head?_ways_word]
  rfl

theorem extend?_word_of_ne (h : c ≠ x) : extend? (.word [x] :: ps) taken (c :: rest) = none := by
  rw [extend?, head?_ways_word, Token.dropStart?, if_neg h.symm]
  rfl

theorem extend?_word_cons : extend? (.word [x] :: ps) taken (x :: rest) =
    (extend? ps [x] rest).map fun others => (taken :: others.1, others.2) := by
  rw [extend?, head?_ways_word, Token.dropStart?, if_pos rfl]
  rfl

end Pattern

namespace Token

open Pattern (ways extend? head?_ways_cons head?_ways_word extend?_word_nil extend?_word_of_ne
  extend?_word_cons)

/-- The pattern of tokens. -/
def pattern : List Piece :=
  [.word opening, .greedy isModuleChar, .word ['#'], .lazy fun c => !endsLine c, .word [mark]]

/-- The value of a token is a lazy run in front of a mark: it stops at the first mark behind its
first character. -/
theorem head?_ways_value (cs : List Char) :
    (ways [.lazy fun c => !endsLine c, .word [mark]] cs).head? =
      (value? cs).map fun out => ([out.1, [mark]], out.2) := by
  rw [head?_ways_cons, Piece.ways]
  cases cs with
  | nil => rfl
  | cons first cs =>
    rw [value?]
    by_cases hfirst : endsLine first = true
    · rw [Piece.runs_of_neg (by simp [hfirst]), if_pos hfirst]
      rfl
    · have hmark (taken rest : List Char) :
          (extend? [.word [mark]] (first :: taken) (mark :: rest)).isSome = true := by
        rw [extend?_word_cons]
        rfl
      rw [Piece.findSome?_runs_cons (by simp [hfirst]), if_neg hfirst,
        Piece.findSome?_runs (m := mark)
          (f := fun taken rest => extend? [.word [mark]] (first :: taken) rest)
          (fun _ => extend?_word_nil) (fun _ _ _ hc => extend?_word_of_ne hc) hmark]
      cases cs.dropWhile fun c => c != mark && !endsLine c with
      | nil => exact extend?_word_nil
      | cons c rest =>
        by_cases hc : c = mark
        · subst hc
          rw [extend?_word_cons]
          simp [extend?, ways]
        · rw [extend?_word_of_ne hc]
          simp [hc]

/-- The preferred match of the pattern at the front of characters is the token there. -/
theorem head?_ways_pattern (cs : List Char) :
    (ways pattern cs).head? =
      (match? cs).map fun p => ([opening, p.moduleId, ['#'], p.value, [mark]], p.rest) := by
  rw [pattern, head?_ways_word, match?]
  cases dropStart? opening cs with
  | none => rfl
  | some cs =>
    have hsharp (taken : List Char) (c : Char) (rest : List Char) (hc : isModuleChar c = true) :
        extend? [.word ['#'], .lazy fun c => !endsLine c, .word [mark]] taken (c :: rest) =
          none := by
      refine extend?_word_of_ne fun h => ?_
      rw [h] at hc
      revert hc
      decide
    simp only [Option.bind_some, Option.bind_eq_bind]
    rw [extend?, head?_ways_cons, Piece.ways, Piece.findSome?_reverse_runs hsharp]
    cases hname : cs.takeWhile isModuleChar with
    | nil => rfl
    | cons m ms =>
      rw [if_neg (List.cons_ne_nil m ms)]
      cases cs.dropWhile isModuleChar with
      | nil =>
        rw [extend?_word_nil]
        rfl
      | cons c rest =>
        by_cases hc : c = '#'
        · subst hc
          rw [extend?_word_cons, extend?, head?_ways_value]
          cases h : value? rest <;> simp [h]
        · rw [extend?_word_of_ne hc]
          simp [hc]

end Token

end ClassTemplates
