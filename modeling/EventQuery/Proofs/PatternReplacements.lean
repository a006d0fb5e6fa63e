import EventQuery.Expr.Dialect

/-!
# Replacements in turn

A pattern is put into the form of SQL by four replacements, each over the
whole text that the one before has left. Two of them put in signs that others
look for: `*` becomes `%` and `?` becomes `_`, while `%` and `_` are escaped.

What counts is the order. If no replacement looks for a sign that an earlier
one puts in (`Undisturbed`), all of them together replace each character of
the text once and on its own (`replaceInTurn_eq_flatMap`). The four are in
such an order, so a pattern is translated character by character
(`likePattern_eq_flatMap`).

Equal texts do not show which sign was there before, so a run is also made
with marks on what the replacements put in (`replaceMarkedInTurn`).
-/

namespace EventQuery

namespace Dialect

/-! ## One replacement after another -/

/-- A sign to look for and what is put in its place. -/
structure Replacement where
  sign : Char
  text : List Char

def replaceInTurn (rs : List Replacement) (s : List Char) : List Char :=
  rs.foldl (fun s r => replaceChar r.sign r.text s) s

/-- What is put in the place of a character if the first replacement that
looks for it is the only one. -/
def substitute : List Replacement → Char → List Char
  | [], c => [c]
  | r :: rs, c => if c = r.sign then r.text else substitute rs c

/-- No replacement looks for what an earlier one puts in. -/
def Undisturbed (rs : List Replacement) : Prop :=
  rs.Pairwise fun earlier later => later.sign ∉ earlier.text

theorem substitute_of_not_sign {rs : List Replacement} {c : Char}
    (h : ∀ r ∈ rs, r.sign ≠ c) : substitute rs c = [c] := by
  induction rs with
  | nil => rfl
  | cons r rs ih =>
      obtain ⟨hr, hrs⟩ := List.forall_mem_cons.mp h
      rw [substitute, if_neg hr.symm, ih hrs]

/-- A text without the signs is left as it is. -/
theorem flatMap_substitute_of_not_sign {rs : List Replacement} {s : List Char}
    (h : ∀ r ∈ rs, r.sign ∉ s) : s.flatMap (substitute rs) = s := by
  induction s with
  | nil => rfl
  | cons c s ih =>
      have hc : ∀ r ∈ rs, r.sign ≠ c := fun r hr heq => h r hr (heq ▸ List.mem_cons_self)
      have hs : ∀ r ∈ rs, r.sign ∉ s := fun r hr hmem => h r hr (List.mem_cons_of_mem c hmem)
      rw [List.flatMap_cons, substitute_of_not_sign hc, ih hs, List.singleton_append]

/-- Replacements that leave each other's text alone are one replacement of
every character. -/
theorem replaceInTurn_eq_flatMap {rs : List Replacement} (h : Undisturbed rs) (s : List Char) :
    replaceInTurn rs s = s.flatMap (substitute rs) := by
  induction rs generalizing s with
  | nil => exact (flatMap_substitute_of_not_sign (List.forall_mem_nil _)).symm
  | cons r rs ih =>
      obtain ⟨hfirst, hrest⟩ := List.pairwise_cons.mp h
      -- What the first puts in goes through the rest unchanged.
      have hchar : ∀ c, (if c = r.sign then r.text else [c]).flatMap (substitute rs) =
          substitute (r :: rs) c := by
        intro c
        rw [substitute]
        split
        · exact flatMap_substitute_of_not_sign hfirst
        · exact List.append_nil _
      calc replaceInTurn (r :: rs) s
          = (replaceChar r.sign r.text s).flatMap (substitute rs) := ih hrest _
        _ = s.flatMap fun c => (if c = r.sign then r.text else [c]).flatMap (substitute rs) :=
            List.flatMap_assoc
        _ = s.flatMap (substitute (r :: rs)) := by rw [funext hchar]

/-! ## The replacements of a pattern -/

/-- The replacements that make a pattern one of SQL. -/
def likeReplacements : List Replacement :=
  [⟨'%', ['\\', '%']⟩, ⟨'_', ['\\', '_']⟩, ⟨'*', ['%']⟩, ⟨'?', ['_']⟩]

theorem likePattern_eq_replaceInTurn (p : List Char) :
    likePattern p = replaceInTurn likeReplacements p := rfl

theorem likeReplacements_undisturbed : Undisturbed likeReplacements := by
  unfold Undisturbed
  decide

/-- The other way round a wildcard is taken for text. -/
example : replaceInTurn likeReplacements.reverse ['*', '%'] = ['\\', '%', '\\', '%'] := by decide

end Dialect

open Dialect

/-- One character of a pattern in the form of SQL. -/
def likeChar : Char → List Char
  | '%' => ['\\', '%']
  | '_' => ['\\', '_']
  | '*' => ['%']
  | '?' => ['_']
  | c => [c]

theorem likeChar_other {c : Char} (hpercent : c ≠ '%') (hscore : c ≠ '_') (hstar : c ≠ '*')
    (hmark : c ≠ '?') : likeChar c = [c] := by
  unfold likeChar
  split <;> first | contradiction | rfl

theorem substitute_likeReplacements (c : Char) : substitute likeReplacements c = likeChar c := by
  unfold likeChar
  split
  iterate 4 rfl
  rename_i hpercent hscore hstar hmark
  refine substitute_of_not_sign ?_
  simp only [likeReplacements, List.forall_mem_cons]
  exact ⟨Ne.symm hpercent, Ne.symm hscore, Ne.symm hstar, Ne.symm hmark, List.forall_mem_nil _⟩

theorem likePattern_eq_flatMap (p : List Char) : likePattern p = p.flatMap likeChar := by
  rw [likePattern_eq_replaceInTurn, replaceInTurn_eq_flatMap likeReplacements_undisturbed,
    funext substitute_likeReplacements]

theorem likePattern_cons (c : Char) (p : List Char) :
    likePattern (c :: p) = likeChar c ++ likePattern p := by
  rw [likePattern_eq_flatMap, likePattern_eq_flatMap, List.flatMap_cons]

theorem likePattern_append (p q : List Char) :
    likePattern (p ++ q) = likePattern p ++ likePattern q := by
  simp only [likePattern_eq_flatMap, List.flatMap_append]

/-! ## Marks -/

namespace Dialect

/-- A character, and whether a replacement has put it in. -/
structure Marked where
  char : Char
  putIn : Bool

/-- One replacement, with marks on what it puts in. -/
def replaceMarked (r : Replacement) (s : List Marked) : List Marked :=
  s.flatMap fun m => if m.char = r.sign then r.text.map (⟨·, true⟩) else [m]

def replaceMarkedInTurn (rs : List Replacement) (s : List Marked) : List Marked :=
  rs.foldl (fun s r => replaceMarked r s) s

/-- A text that no replacement has touched. -/
def unmarked (s : List Char) : List Marked := s.map (⟨·, false⟩)

theorem map_char_unmarked (s : List Char) : (unmarked s).map Marked.char = s := by
  simp [unmarked, Function.comp_def]

theorem map_char_replaceMarked (r : Replacement) (s : List Marked) :
    (replaceMarked r s).map Marked.char = replaceChar r.sign r.text (s.map Marked.char) := by
  induction s with
  | nil => rfl
  | cons m s ih =>
      rw [replaceMarked, replaceChar] at ih
      rw [replaceMarked, replaceChar, List.flatMap_cons, List.map_append, ih, List.map_cons,
        List.flatMap_cons]
      split <;> simp [Function.comp_def]

/-- Without its marks the run is the one on plain text. -/
theorem map_char_replaceMarkedInTurn (rs : List Replacement) (s : List Marked) :
    (replaceMarkedInTurn rs s).map Marked.char = replaceInTurn rs (s.map Marked.char) := by
  induction rs generalizing s with
  | nil => rfl
  | cons r rs ih =>
      have hstep := ih (replaceMarked r s)
      rwa [map_char_replaceMarked] at hstep

theorem mem_replaceMarked {r : Replacement} {s : List Marked} {m : Marked}
    (h : m ∈ replaceMarked r s) : m ∈ s ∨ m.char ∈ r.text := by
  obtain ⟨m', hm', hmem⟩ := List.mem_flatMap.mp h
  split at hmem
  · obtain ⟨c, hc, rfl⟩ := List.mem_map.mp hmem
    exact .inr hc
  · exact .inl (List.mem_singleton.mp hmem ▸ hm')

/-- What is in a text after some replacements was there before or is from
one of them. -/
theorem mem_replaceMarkedInTurn {rs : List Replacement} {s : List Marked} {m : Marked}
    (h : m ∈ replaceMarkedInTurn rs s) : m ∈ s ∨ ∃ r ∈ rs, m.char ∈ r.text := by
  induction rs generalizing s with
  | nil => exact .inl h
  | cons r rs ih =>
      obtain hmem | ⟨r', hr', htext⟩ := ih h
      · refine (mem_replaceMarked hmem).imp_right fun htext => ?_
        exact ⟨r, List.mem_cons_self, htext⟩
      · exact .inr ⟨r', List.mem_cons_of_mem r hr', htext⟩

/-- Whatever was put in so far, the next replacement does not look for it. -/
theorem sign_ne_of_putIn {before after : List Replacement} {r : Replacement}
    (h : Undisturbed (before ++ r :: after)) {s : List Char} {m : Marked}
    (hm : m ∈ replaceMarkedInTurn before (unmarked s)) (hput : m.putIn = true) :
    m.char ≠ r.sign := by
  obtain hmem | ⟨r', hr', htext⟩ := mem_replaceMarkedInTurn hm
  · obtain ⟨c, -, rfl⟩ := List.mem_map.mp hmem
    cases hput
  · intro heq
    exact (List.pairwise_append.mp h).2.2 r' hr' r List.mem_cons_self (heq ▸ htext)

end Dialect

/-- **A pattern is replaced once.** The replacements of a pattern, one after
the other, amount to one of every character on its own, and so a pattern can
be cut anywhere. None of them comes upon a sign that an earlier one has put
in: not in the text that it is given, whatever the pattern. -/
theorem likePattern_replaces_once (p : List Char) :
    likePattern p = replaceInTurn likeReplacements p ∧
    likePattern p = p.flatMap likeChar ∧
    (∀ q, likePattern (p ++ q) = likePattern p ++ likePattern q) ∧
    ∀ before r after, likeReplacements = before ++ r :: after →
      (replaceMarkedInTurn before (unmarked p)).map Marked.char = replaceInTurn before p ∧
      ∀ m ∈ replaceMarkedInTurn before (unmarked p), m.putIn = true → m.char ≠ r.sign := by
  refine ⟨likePattern_eq_replaceInTurn p, likePattern_eq_flatMap p, likePattern_append p,
    fun before r after hsplit => ⟨?_, fun m hm hput => ?_⟩⟩
  · rw [map_char_replaceMarkedInTurn, map_char_unmarked]
  · exact sign_ne_of_putIn (hsplit ▸ likeReplacements_undisturbed) hm hput

/-- Escapes and a wildcard are in the text when the last replacement looks
for question marks. -/
theorem likePattern_replaces_once_offer :
    likePattern "100%_off*".toList = "100\\%\\_off%".toList ∧
      (replaceMarkedInTurn (likeReplacements.take 3) (unmarked "100%_off*".toList)).map
        Marked.putIn = [false, false, false, true, true, true, true, false, false, false, true] ∧
      ∀ m ∈ replaceMarkedInTurn (likeReplacements.take 3) (unmarked "100%_off*".toList),
        m.putIn = true → m.char ≠ '?' := by
  obtain ⟨-, hchars, -, hmarks⟩ := likePattern_replaces_once "100%_off*".toList
  exact ⟨hchars.trans rfl, rfl, (hmarks (likeReplacements.take 3) ⟨'?', ['_']⟩ [] rfl).2⟩

end EventQuery
