import Mathlib.Data.List.TakeWhile
import Teal.Source.Token
/-!
# Tokens that read back

A line is cut into texts of two shapes, `IsToken`. Texts of these shapes, written with a blank
between them, are cut at the same places again.
-/

namespace Teal.Source

open Text (isBlank)

/-- What the tokens of a line look like. -/
inductive IsToken : List Char → Prop
  /-- No blank, no quote at the start, and not the start of a comment. -/
  | bare {c cs} : (∀ d ∈ c :: cs, isBlank d = false) → c ≠ '"' → startsComment (c :: cs) = false →
      IsToken (c :: cs)
  /-- A quote and all up to the next one that is not escaped. -/
  | quoted {t} : closeQuote? t = some (t, []) → IsToken ('"' :: t)

/-- Text at which a token before it ends. -/
def Breaks (rest : List Char) : Prop := ∀ c, rest.head? = some c → isBlank c = true

/-! ## Quoted tokens -/

theorem closeQuote?_cons {c : Char} (hesc : c ≠ '\\') (hquote : c ≠ '"') (cs : List Char) :
    closeQuote? (c :: cs) = (closeQuote? cs).map fun (t, rest) => (c :: t, rest) := by
  rw [closeQuote?]
  · exact fun h => absurd h hesc
  · exact fun _ _ h => absurd h hesc
  · exact hquote

theorem not_escape {c : Char} {cs : List Char} (hnil : c = '\\' → cs = [] → False)
    (hcons : ∀ d ds, c = '\\' → cs = d :: ds → False) : c ≠ '\\' := by
  intro hc
  cases cs with
  | nil => exact hnil hc rfl
  | cons d ds => exact hcons d ds hc rfl

/-- What was read up to a closing quote is read up to the same quote, whatever comes after it. -/
theorem closeQuote?_again {cs t rest : List Char} (h : closeQuote? cs = some (t, rest))
    (more : List Char) : closeQuote? (t ++ more) = some (t, more) := by
  fun_induction closeQuote? cs generalizing t rest with
  | case1 => simp at h
  | case2 => simp at h
  | case3 c cs ih =>
    obtain ⟨⟨t', rest'⟩, h', heq⟩ := Option.map_eq_some_iff.1 h
    obtain ⟨rfl, rfl⟩ := Prod.mk.inj heq
    simp [closeQuote?, ih h']
  | case4 cs =>
    simp at h
    simp [closeQuote?, ← h.1]
  | case5 c cs hnil hcons hquote ih =>
    obtain ⟨⟨t', rest'⟩, h', heq⟩ := Option.map_eq_some_iff.1 h
    obtain ⟨rfl, rfl⟩ := Prod.mk.inj heq
    rw [List.cons_append, closeQuote?_cons (not_escape hnil hcons) hquote, ih h']
    rfl

theorem closeQuote?_self {cs t rest : List Char} (h : closeQuote? cs = some (t, rest)) :
    closeQuote? t = some (t, []) := by
  have hself := closeQuote?_again h []
  rwa [List.append_nil] at hself

theorem closeQuote?_getLast? {cs t rest : List Char} (h : closeQuote? cs = some (t, rest)) :
    t.getLast? = some '"' := by
  fun_induction closeQuote? cs generalizing t rest with
  | case1 => simp at h
  | case2 => simp at h
  | case3 c cs ih =>
    obtain ⟨⟨t', rest'⟩, h', heq⟩ := Option.map_eq_some_iff.1 h
    obtain ⟨rfl, rfl⟩ := Prod.mk.inj heq
    simp [List.getLast?_cons, ih h']
  | case4 cs =>
    simp at h
    simp [← h.1]
  | case5 c cs _ _ _ ih =>
    obtain ⟨⟨t', rest'⟩, h', heq⟩ := Option.map_eq_some_iff.1 h
    obtain ⟨rfl, rfl⟩ := Prod.mk.inj heq
    simp [List.getLast?_cons, ih h']

/-! ## Tokens of a line -/

theorem tokens?_blank {c : Char} (h : isBlank c = true) (cs : List Char) :
    tokens? (c :: cs) = tokens? cs := by
  rw [tokens?, if_pos h]

theorem startsComment_cons (c d : Char) (cs : List Char) :
    startsComment (c :: d :: cs) = (c == '/' && d == '/') := by
  unfold startsComment
  split
  · rename_i h
    simp only [List.cons.injEq] at h
    simp [h.1, h.2.1]
  · rename_i h
    by_cases hc : c = '/'
    · have hd : d ≠ '/' := fun hd => h cs (by rw [hc, hd])
      simp [hd]
    · simp [hc]

theorem startsComment_of_ne {c : Char} (h : c ≠ '/') (cs : List Char) :
    startsComment (c :: cs) = false := by
  cases cs with
  | nil => simp [startsComment]
  | cons d cs => simp [startsComment_cons, h]

theorem startsComment_concat {c : Char} (h : c ≠ '/') (cs : List Char) :
    startsComment (cs ++ [c]) = startsComment cs := by
  match cs with
  | [] => exact startsComment_of_ne h []
  | [d] =>
    rw [List.singleton_append, startsComment_cons]
    simp [startsComment, h]
  | d :: e :: cs => simp only [List.cons_append, startsComment_cons]

theorem Breaks.head?_ne {rest : List Char} (h : Breaks rest) {c : Char} (hc : isBlank c = false) :
    rest.head? ≠ some c := by
  intro hhead
  cases hc.symm.trans (h c hhead)

theorem startsComment_append (c : Char) (cs : List Char) {rest : List Char}
    (hrest : rest.head? ≠ some '/') :
    startsComment (c :: cs ++ rest) = startsComment (c :: cs) := by
  cases cs with
  | cons d cs => simp only [List.cons_append, startsComment_cons]
  | nil =>
    cases rest with
    | nil => rfl
    | cons d rest =>
      have hd : d ≠ '/' := fun hd => hrest (congrArg some hd)
      rw [List.cons_append, List.nil_append, startsComment_cons]
      simp [startsComment, hd]

theorem Breaks.dropWhile {rest : List Char} (h : Breaks rest) :
    rest.dropWhile (!isBlank ·) = rest ∧ rest.takeWhile (!isBlank ·) = [] := by
  cases rest with
  | nil => exact ⟨rfl, rfl⟩
  | cons c rest => simp [h c rfl]

theorem breaks_dropWhile (cs : List Char) : Breaks (cs.dropWhile (!isBlank ·)) := by
  intro c hc
  have hhead := List.head?_dropWhile_not (!isBlank ·) cs
  rw [hc] at hhead
  simpa using hhead

/-- A quoted token is cut off at its closing quote, whatever comes after it. -/
theorem tokens?_quoted {t : List Char} (h : closeQuote? t = some (t, [])) (rest : List Char) :
    tokens? ('"' :: t ++ rest) = (tokens? rest).map (('"' :: t) :: ·) := by
  have hclose := closeQuote?_again h rest
  rw [List.cons_append, tokens?, if_neg (by decide), if_neg (by simp [startsComment]), if_pos rfl]
  split
  · rename_i hnone
    cases hnone.symm.trans hclose
  · rename_i t' rest' hsome
    cases hsome.symm.trans hclose
    rfl

/-- A token is cut off where the text after it breaks. -/
theorem IsToken.tokens?_append {t rest : List Char} (ht : IsToken t) (hrest : Breaks rest) :
    tokens? (t ++ rest) = (tokens? rest).map (t :: ·) := by
  cases ht with
  | @bare c cs hblank hquote hcomment =>
    have hcs : ∀ d ∈ cs, (!isBlank d) = true := fun d hd => by
      rw [hblank d (List.mem_cons_of_mem c hd)]
      rfl
    -- The token ends where `rest` begins, with a blank or not at all.
    have htake : (cs ++ rest).takeWhile (!isBlank ·) = cs := by
      rw [List.takeWhile_append_of_pos hcs, hrest.dropWhile.2, List.append_nil]
    have hdrop : (cs ++ rest).dropWhile (!isBlank ·) = rest := by
      rw [List.dropWhile_append_of_pos hcs, hrest.dropWhile.1]
    have hc := hblank c List.mem_cons_self
    rw [List.cons_append, tokens?, if_neg (by simp [hc]), ← List.cons_append,
      startsComment_append c cs (hrest.head?_ne rfl), hcomment, if_neg (by simp), if_neg hquote,
      htake, hdrop]
  | quoted h => exact tokens?_quoted h rest

/-- Tokens that are written with a blank between them are read back. -/
theorem tokens?_intercalate {ts : List (List Char)} (h : ∀ t ∈ ts, IsToken t) :
    tokens? ([' '].intercalate ts) = some ts := by
  induction ts with
  | nil => simp [tokens?]
  | cons t ts ih =>
    have ht := h t List.mem_cons_self
    have hts := ih fun t' ht' => h t' (List.mem_cons_of_mem t ht')
    cases ts with
    | nil =>
      have hbreak : Breaks [] := fun c hc => by cases hc
      have happ : tokens? (t ++ []) = (tokens? []).map (t :: ·) := ht.tokens?_append hbreak
      simpa [tokens?] using happ
    | cons u us =>
      have hbreak : Breaks (' ' :: [' '].intercalate (u :: us)) := fun c hc => by
        cases hc
        rfl
      rw [List.intercalate_cons_cons, List.append_assoc, List.singleton_append,
        ht.tokens?_append hbreak, tokens?_blank (by decide), hts]
      rfl

/-- A run without blanks is a token, where no quote and no comment starts. -/
theorem isToken_bare {c : Char} {cs : List Char} (hblank : isBlank c = false)
    (hcomment : startsComment (c :: cs) = false) (hquote : c ≠ '"') :
    IsToken (c :: cs.takeWhile (!isBlank ·)) := by
  -- The line does not start with a comment, and what follows the token cannot make it one.
  have hbreak : Breaks (cs.dropWhile (!isBlank ·)) := breaks_dropWhile cs
  have hstart := startsComment_append c (cs.takeWhile (!isBlank ·)) (hbreak.head?_ne rfl)
  rw [List.cons_append, List.takeWhile_append_dropWhile] at hstart
  refine .bare (fun d hd => ?_) hquote (hstart ▸ hcomment)
  rcases List.mem_cons.1 hd with rfl | hd
  · exact hblank
  · simpa using List.mem_takeWhile_imp hd

/-- What a line is cut into are tokens, and they hold characters of the line. -/
theorem isToken_of_mem {cs : List Char} {ts : List (List Char)} (h : tokens? cs = some ts) :
    ∀ t ∈ ts, IsToken t ∧ ∀ c ∈ t, c ∈ cs := by
  fun_induction tokens? cs generalizing ts with
  | case1 =>
    cases h
    exact nofun
  | case2 c cs _ ih =>
    intro t ht
    obtain ⟨htoken, hmem⟩ := ih h t ht
    exact ⟨htoken, fun d hd => List.mem_cons_of_mem c (hmem d hd)⟩
  | case3 =>
    cases h
    exact nofun
  | case4 => cases h
  | case5 cs t rest hclose hblank hcomment this ih =>
    obtain ⟨ts', h', rfl⟩ := Option.map_eq_some_iff.1 h
    have happ := closeQuote?_append hclose
    intro u hu
    rcases List.mem_cons.1 hu with rfl | hu
    · refine ⟨.quoted (closeQuote?_self hclose), fun d hd => ?_⟩
      rcases List.mem_cons.1 hd with rfl | hd
      · exact List.mem_cons_self
      · exact List.mem_cons_of_mem _ (happ ▸ List.mem_append_left rest hd)
    · obtain ⟨htoken, hmem⟩ := ih h' u hu
      exact ⟨htoken, fun d hd =>
        List.mem_cons_of_mem _ (happ ▸ List.mem_append_right t (hmem d hd))⟩
  | case6 c cs hblank hcomment hquote this ih =>
    obtain ⟨ts', h', rfl⟩ := Option.map_eq_some_iff.1 h
    intro u hu
    rcases List.mem_cons.1 hu with rfl | hu
    · refine ⟨isToken_bare (by simpa using hblank) (by simpa using hcomment) hquote, fun d hd => ?_⟩
      rcases List.mem_cons.1 hd with rfl | hd
      · exact List.mem_cons_self
      · exact List.mem_cons_of_mem c ((List.takeWhile_sublist _).subset hd)
    · obtain ⟨htoken, hmem⟩ := ih h' u hu
      exact ⟨htoken, fun d hd =>
        List.mem_cons_of_mem c ((List.dropWhile_sublist _).subset (hmem d hd))⟩

/-- The first token of a line that does not start with a blank is where the line starts. -/
theorem prefix_of_tokens? {c : Char} {cs t : List Char} {ts : List (List Char)}
    (hc : isBlank c = false) (h : tokens? (c :: cs) = some (t :: ts)) : t <+: c :: cs := by
  rw [tokens?, if_neg (by simp [hc])] at h
  split at h
  · cases h
  · split at h
    · split at h
      · cases h
      · rename_i u rest hclose
        obtain ⟨ts', -, heq⟩ := Option.map_eq_some_iff.1 h
        cases heq
        exact ⟨rest, by rw [List.cons_append, closeQuote?_append hclose]⟩
    · obtain ⟨ts', -, heq⟩ := Option.map_eq_some_iff.1 h
      cases heq
      exact List.cons_prefix_cons.2 ⟨rfl, List.takeWhile_prefix _⟩

end Teal.Source
