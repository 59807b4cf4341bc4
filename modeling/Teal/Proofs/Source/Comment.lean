import Teal.Proofs.Source.Operand
/-!
# Comments behind a line

A comment behind the tokens of a line is dropped with the tokens that would start in it. Two parts
of a line do not see it so. A pragma is read by its words, of which the comment is some more. And
white space that is no blank goes away at the end of a line, but in front of a comment it is not at
the end any more, and is read as characters of a token.
-/

namespace Teal.Source

open Text (isBlank isSpace Trimmed)

/-! ## The end of a line -/

theorem trim_eq {lead core trail : List Char} (hlead : ∀ c ∈ lead, isSpace c = true)
    (hcore : Trimmed core) (hne : core ≠ []) (htrail : ∀ c ∈ trail, isSpace c = true) :
    Text.trim (lead ++ (core ++ trail)) = core := by
  have hstart : (core ++ trail).dropWhile isSpace = core ++ trail := by
    obtain ⟨c, cs, rfl⟩ := List.exists_cons_of_ne_nil hne
    rw [List.cons_append, List.dropWhile_cons_of_neg (by simp [hcore.head c rfl])]
  rw [Text.trim, List.dropWhile_append_of_pos hlead, hstart, Text.trimEnd, List.reverse_append,
    List.dropWhile_append_of_pos (by simpa using htrail)]
  exact Text.trimEnd_eq_self hcore.last

theorem rtakeWhile_eq {front trail : List Char} (hne : front ≠ [])
    (hlast : ∀ c, front.getLast? = some c → isSpace c = false)
    (htrail : ∀ c ∈ trail, isSpace c = true) : (front ++ trail).rtakeWhile isSpace = trail := by
  have hend := hlast _ (List.getLast?_eq_some_getLast hne)
  rw [← List.dropLast_append_getLast hne, List.rtakeWhile, List.reverse_append,
    List.takeWhile_append_of_pos (by simpa using htrail), List.reverse_concat,
    List.takeWhile_cons_of_neg (by simp [hend]), List.append_nil, List.reverse_reverse]

/-- A text that is not all white space is what it is trimmed to, with white space around. -/
theorem exists_trim {cs : List Char} (hne : Text.trim cs ≠ []) :
    ∃ lead, (∀ c ∈ lead, isSpace c = true) ∧
      cs = lead ++ (Text.trim cs ++ cs.rtakeWhile isSpace) := by
  have hrest : Text.trim cs ++ (cs.dropWhile isSpace).rtakeWhile isSpace = cs.dropWhile isSpace :=
    List.rdropWhile_append_rtakeWhile
  have hcs : cs.takeWhile isSpace ++ Text.trim cs ++ (cs.dropWhile isSpace).rtakeWhile isSpace =
      cs := by
    rw [List.append_assoc, hrest, List.takeWhile_append_dropWhile]
  have htrail : cs.rtakeWhile isSpace = (cs.dropWhile isSpace).rtakeWhile isSpace := by
    nth_rewrite 1 [← hcs]
    refine rtakeWhile_eq (by simp [hne]) (fun c hc => ?_) fun c hc => List.mem_rtakeWhile_imp hc
    rw [List.getLast?_append_of_ne_nil _ hne] at hc
    exact (Text.trimmed_trim cs).last c hc
  refine ⟨cs.takeWhile isSpace, fun c hc => List.mem_takeWhile_imp hc, ?_⟩
  rw [htrail, ← List.append_assoc, hcs]

/-- What a line is trimmed to when a comment is written behind it. -/
theorem trim_comment {cs : List Char} (hne : Text.trim cs ≠ []) (note : List Char) :
    ∃ note', Text.trim (cs ++ ' ' :: '/' :: '/' :: note) =
      Text.trim cs ++ (cs.rtakeWhile isSpace ++ ' ' :: '/' :: '/' :: note') := by
  obtain ⟨lead, hlead, hcs⟩ := exists_trim hne
  have hnote : Text.trimEnd note ++ note.rtakeWhile isSpace = note :=
    List.rdropWhile_append_rtakeWhile
  have hcore : Trimmed (Text.trim cs ++ (cs.rtakeWhile isSpace ++
      ' ' :: '/' :: '/' :: Text.trimEnd note)) := by
    refine ⟨fun c hc => ?_, fun c hc => ?_⟩
    · rw [List.head?_append_of_ne_nil _ hne] at hc
      exact (Text.trimmed_trim cs).head c hc
    · rw [List.getLast?_append_of_ne_nil _ (by simp), List.getLast?_append_of_ne_nil _ (by simp),
        List.getLast?_cons_cons, List.getLast?_cons_cons, List.getLast?_cons] at hc
      cases hend : (Text.trimEnd note).getLast? with
      | none =>
        rw [hend] at hc
        cases hc
        rfl
      | some d =>
        rw [hend] at hc
        cases hc
        exact Text.trimEnd_last hend
  refine ⟨Text.trimEnd note, ?_⟩
  have htext : cs ++ ' ' :: '/' :: '/' :: note =
      lead ++ (Text.trim cs ++ (cs.rtakeWhile isSpace ++ ' ' :: '/' :: '/' :: Text.trimEnd note) ++
        note.rtakeWhile isSpace) := by
    conv_lhs => rw [hcs, ← hnote]
    simp only [List.append_assoc, List.cons_append]
  rw [htext, trim_eq hlead hcore (by simp [hne]) fun c hc => List.mem_rtakeWhile_imp hc]

/-! ## Tokens in front of a comment -/

/-- How a text is cut into tokens, by rules. -/
inductive Cuts : List Char → List (List Char) → Prop
  | nil : Cuts [] []
  | blank {c cs ts} : isBlank c = true → Cuts cs ts → Cuts (c :: cs) ts
  | comment (cs) : Cuts ('/' :: '/' :: cs) []
  | quoted {t rest ts} : closeQuote? t = some (t, []) → Cuts rest ts →
      Cuts ('"' :: t ++ rest) (('"' :: t) :: ts)
  | bare {t rest ts} : IsToken t → t.head? ≠ some '"' → Breaks rest → Cuts rest ts →
      Cuts (t ++ rest) (t :: ts)

theorem eq_of_startsComment {cs : List Char} (h : startsComment cs = true) :
    ∃ rest, cs = '/' :: '/' :: rest := by
  unfold startsComment at h
  split at h
  · exact ⟨_, rfl⟩
  · cases h

theorem cuts_of_tokens? {cs : List Char} {ts : List (List Char)} (h : tokens? cs = some ts) :
    Cuts cs ts := by
  fun_induction tokens? cs generalizing ts with
  | case1 =>
    cases h
    exact .nil
  | case2 c cs hblank ih => exact .blank hblank (ih h)
  | case3 c cs _ hcomment =>
    cases h
    obtain ⟨rest, heq⟩ := eq_of_startsComment hcomment
    rw [heq]
    exact .comment rest
  | case4 => cases h
  | case5 cs t rest hclose _ _ _ ih =>
    obtain ⟨ts', h', rfl⟩ := Option.map_eq_some_iff.1 h
    rw [← closeQuote?_append hclose]
    exact .quoted (closeQuote?_self hclose) (ih h')
  | case6 c cs hblank hcomment hquote _ ih =>
    obtain ⟨ts', h', rfl⟩ := Option.map_eq_some_iff.1 h
    have htoken := isToken_bare (by simpa using hblank) (by simpa using hcomment) hquote
    have hcut := Cuts.bare htoken (by simpa using hquote) (breaks_dropWhile cs) (ih h')
    rwa [List.cons_append, List.takeWhile_append_dropWhile] at hcut

/-- The text has a comment of its own: its tokens are those in front of two slashes in it. -/
def Commented (cs : List Char) : Prop :=
  ∃ pre rest, cs = pre ++ '/' :: '/' :: rest ∧ tokens? pre = tokens? cs

theorem breaks_append {rest more : List Char} (hrest : Breaks rest) (hmore : Breaks more) :
    Breaks (rest ++ more) := by
  cases rest with
  | nil => exact hmore
  | cons c rest => exact fun d hd => hrest d hd

theorem tokens?_comment (note : List Char) : tokens? ('/' :: '/' :: note) = some [] := by
  rw [tokens?, if_neg (by decide), if_pos (by rfl)]

/-- What breaks a text off and has no token of its own changes no token. -/
theorem Cuts.tokens?_append {cs rest : List Char} {ts : List (List Char)} (h : Cuts cs ts)
    (hbreak : Breaks rest) (hrest : tokens? rest = some []) : tokens? (cs ++ rest) = some ts := by
  induction h with
  | nil => exact hrest
  | blank hblank _ ih => rw [List.cons_append, tokens?_blank hblank, ih]
  | comment cs => exact tokens?_comment (cs ++ rest)
  | quoted hclose _ ih => rw [List.append_assoc, tokens?_quoted hclose, ih, Option.map_some]
  | bare htoken _ hbreak' _ ih =>
    rw [List.append_assoc, htoken.tokens?_append (breaks_append hbreak' hbreak), ih,
      Option.map_some]

theorem Cuts.eq_nil {ts : List (List Char)} (h : Cuts [] ts) : ts = [] := by
  have hts : tokens? ([] ++ []) = some ts := h.tokens?_append nofun (by rw [tokens?])
  rw [List.append_nil, tokens?] at hts
  exact (Option.some.inj hts).symm

/-- A first token without quotes ends where the text breaks. -/
theorem Cuts.breaks {t more : List Char} {ts : List (List Char)} (htoken : IsToken t)
    (hquote : t.head? ≠ some '"') (h : Cuts (t ++ more) (t :: ts)) : Breaks more := by
  generalize htext : t ++ more = text at h
  cases h with
  | @blank c cs _ hblank =>
    obtain ⟨d, ds, rfl⟩ := List.exists_cons_of_ne_nil htoken.ne_nil
    obtain rfl := (List.cons.inj htext).1
    cases (htoken.not_blank_head rfl).symm.trans hblank
  | quoted => exact absurd rfl hquote
  | bare _ _ hbreak _ =>
    obtain rfl := List.append_cancel_left htext
    exact hbreak

/-- Behind a comment anything may be written. -/
theorem Cuts.tokens?_commented {pre rest : List Char} {ts : List (List Char)} (h : Cuts pre ts)
    (hts : tokens? (pre ++ '/' :: '/' :: rest) = some ts) (more : List Char) :
    tokens? (pre ++ '/' :: '/' :: rest ++ more) = some ts := by
  induction h with
  | nil => exact tokens?_comment (rest ++ more)
  | blank hblank _ ih =>
    rw [List.cons_append, tokens?_blank hblank] at hts
    rw [List.cons_append, List.cons_append, tokens?_blank hblank, ih hts]
  | comment cs => exact tokens?_comment _
  | quoted hclose _ ih =>
    rw [List.append_assoc, tokens?_quoted hclose] at hts
    obtain ⟨ts', h', heq⟩ := Option.map_eq_some_iff.1 hts
    obtain rfl := (List.cons.inj heq).2
    rw [List.append_assoc, List.append_assoc, tokens?_quoted hclose, ← List.append_assoc, ih h',
      Option.map_some]
  | @bare t rest' ts htoken hquote hbreak _ ih =>
    rw [List.append_assoc] at hts
    have hslashes := (cuts_of_tokens? hts).breaks htoken hquote
    rw [htoken.tokens?_append hslashes] at hts
    obtain ⟨ts', h', heq⟩ := Option.map_eq_some_iff.1 hts
    obtain rfl := (List.cons.inj heq).2
    have hmore : Breaks (rest' ++ '/' :: '/' :: rest ++ more) := by
      cases rest' with
      | nil => cases hslashes '/' rfl
      | cons c rest' => exact fun d hd => hbreak d hd
    rw [List.append_assoc, List.append_assoc, ← List.append_assoc rest',
      htoken.tokens?_append hmore, ih h', Option.map_some]

/-- Nothing, or a token that goes on up to a blank. -/
def Unclosed (w : List Char) : Prop := w = [] ∨ IsToken w ∧ w.head? ≠ some '"'

theorem Unclosed.tokens?_append {c : Char} {w rest : List Char} {ts : List (List Char)}
    (hw : Unclosed w) (hblank : isBlank c = true) (hrest : tokens? rest = some ts) :
    ∃ ts', tokens? (w ++ c :: rest) = some ts' ∧ ts'.flatten = w ++ ts.flatten := by
  obtain rfl | ⟨htoken, -⟩ := hw
  · exact ⟨ts, by rw [List.nil_append, tokens?_blank hblank, hrest], rfl⟩
  · have hbreak : Breaks (c :: rest) := fun d hd => Option.some.inj hd ▸ hblank
    refine ⟨w :: ts, ?_, List.flatten_cons⟩
    rw [htoken.tokens?_append hbreak, tokens?_blank hblank, hrest, Option.map_some]

theorem Unclosed.concat {c : Char} {w : List Char} (hw : Unclosed w) (hblank : isBlank c = false)
    (hquote : c ≠ '"') (hslash : c ≠ '/') : Unclosed (w ++ [c]) := by
  refine .inr ?_
  obtain rfl | ⟨htoken, hhead⟩ := hw
  · refine ⟨.bare (fun d hd => ?_) hquote (startsComment_of_ne hslash []), by simpa using hquote⟩
    exact List.mem_singleton.1 hd ▸ hblank
  · cases htoken with
    | quoted => exact absurd rfl hhead
    | @bare d ds hall hne hcomment =>
      rw [List.cons_append]
      refine ⟨.bare (fun e he => ?_) hne ?_, hhead⟩
      · rcases List.mem_append.1 (List.cons_append ▸ he) with he | he
        · exact hall e he
        · exact List.mem_singleton.1 he ▸ hblank
      · rw [← List.cons_append, startsComment_concat hslash, hcomment]

/-- White space that is no blank becomes a part of the tokens, if a comment follows. -/
theorem Unclosed.tokens?_spaces {w sp : List Char} (hw : Unclosed w)
    (hsp : ∀ c ∈ sp, isSpace c = true) (note : List Char) :
    ∃ ts, tokens? (w ++ (sp ++ ' ' :: '/' :: '/' :: note)) = some ts ∧
      ts.flatten = w ++ sp.filter (!isBlank ·) := by
  induction sp generalizing w with
  | nil => exact hw.tokens?_append rfl (tokens?_comment note)
  | cons c sp ih =>
    have ih {w} (hw : Unclosed w) := ih hw fun d hd => hsp d (List.mem_cons_of_mem c hd)
    cases hblank : isBlank c with
    | true =>
      obtain ⟨ts, hts, hflat⟩ := ih (w := []) (.inl rfl)
      obtain ⟨ts', hts', hflat'⟩ := hw.tokens?_append hblank hts
      exact ⟨ts', hts', by rw [hflat', hflat, List.filter_cons_of_neg (by simp [hblank])]; rfl⟩
    | false =>
      have hquote : c ≠ '"' := by
        rintro rfl
        cases hsp _ List.mem_cons_self
      have hslash : c ≠ '/' := by
        rintro rfl
        cases hsp _ List.mem_cons_self
      obtain ⟨ts, hts, hflat⟩ := ih (hw.concat hblank hquote hslash)
      rw [List.append_assoc, List.singleton_append] at hts hflat
      exact ⟨ts, hts, by rw [hflat, List.filter_cons_of_pos (by simp [hblank])]⟩

/-- Without a comment in the text, white space that is no blank comes to its tokens. -/
theorem Cuts.tokens?_spaces {cs sp : List Char} {ts : List (List Char)} (h : Cuts cs ts)
    (hnone : ¬ Commented cs) (hsp : ∀ c ∈ sp, isSpace c = true) (note : List Char) :
    ∃ ts', tokens? (cs ++ (sp ++ ' ' :: '/' :: '/' :: note)) = some ts' ∧
      ts'.flatten = ts.flatten ++ sp.filter (!isBlank ·) := by
  -- A token is in front of the others, whatever becomes of them.
  have step {t rest : List Char} {ts : List (List Char)} {text : List Char}
      (htext : tokens? text = (tokens? rest).map (t :: ·))
      (ih : ∃ ts', tokens? rest = some ts' ∧ ts'.flatten = ts.flatten ++ sp.filter (!isBlank ·)) :
      ∃ ts', tokens? text = some ts' ∧
        ts'.flatten = (t :: ts).flatten ++ sp.filter (!isBlank ·) := by
    obtain ⟨ts', hts', hflat⟩ := ih
    refine ⟨t :: ts', by rw [htext, hts', Option.map_some], ?_⟩
    rw [List.flatten_cons, hflat, List.flatten_cons, List.append_assoc]
  induction h with
  | nil => exact Unclosed.tokens?_spaces (.inl rfl) hsp note
  | @blank c cs ts hblank _ ih =>
    rw [List.cons_append, tokens?_blank hblank]
    refine ih ?_
    rintro ⟨pre, rest, rfl, hpre⟩
    refine hnone ⟨c :: pre, rest, rfl, ?_⟩
    rw [tokens?_blank hblank, tokens?_blank hblank, hpre]
  | comment cs => exact absurd ⟨[], cs, rfl, by rw [tokens?, tokens?_comment]⟩ hnone
  | @quoted t rest ts hclose _ ih =>
    rw [List.append_assoc]
    refine step (tokens?_quoted hclose _) (ih ?_)
    rintro ⟨pre, more, rfl, hpre⟩
    refine hnone ⟨'"' :: t ++ pre, more, (List.append_assoc ..).symm, ?_⟩
    rw [tokens?_quoted hclose, tokens?_quoted hclose, hpre]
  | @bare t rest ts htoken hquote hbreak hrest ih =>
    cases rest with
    | nil =>
      obtain rfl := hrest.eq_nil
      rw [List.append_nil, List.flatten_singleton]
      exact Unclosed.tokens?_spaces (.inr ⟨htoken, hquote⟩) hsp note
    | cons c rest =>
      have hbreak' (more) : Breaks (c :: rest ++ more) := fun d hd => hbreak d hd
      rw [List.append_assoc]
      refine step (htoken.tokens?_append (hbreak' _)) (ih ?_)
      rintro ⟨pre, more, heq, hpre⟩
      have hpre' : Breaks pre := fun d hd => hbreak d (by rw [heq, List.head?_append, hd]; rfl)
      refine hnone ⟨t ++ pre, more, by rw [heq, List.append_assoc], ?_⟩
      rw [htoken.tokens?_append hpre', htoken.tokens?_append hbreak, hpre]

/-! ## Lines that read alike -/

/-- Tokens with white space outside quotes are read by their text alone. -/
theorem ofTokens_space {ts : List (List Char)} {op : Op String} (h : ofTokens ts = .ok op)
    {t : List Char} (ht : t ∈ ts) (hquote : t.head? ≠ some '"') (hspace : ¬ Spaceless t) :
    ∃ name args, ts = (name :: args).map String.toList ∧ op = .instr name args := by
  obtain ⟨rfl, -⟩ | ⟨name, hlabel, rfl, -⟩ | ⟨k, args, rfl, hop⟩ | hinstr := ofTokens_cases h
  · cases ht
  · refine absurd (fun c hc => ?_) hspace
    rw [List.mem_singleton.1 ht] at hc
    rcases List.mem_append.1 hc with hc | hc
    · exact spaceless_of_isLabelName hlabel c hc
    · cases List.mem_singleton.1 hc
      rfl
  · refine absurd ?_ hspace
    rcases List.mem_cons.1 ht with rfl | ht
    · exact spaceless_keyword k
    · obtain ⟨raw, hraw, rfl⟩ := List.mem_map.1 ht
      exact spaceless_of_instruction hop raw hraw hquote
  · exact hinstr

theorem ofTokens_instr {ts : List (List Char)} {name : String} {args : List String}
    (h : ofTokens ts = .ok (.instr name args)) : ts = (name :: args).map String.toList := by
  obtain ⟨-, heq⟩ | ⟨_, -, -, heq⟩ | ⟨k, _, -, hop⟩ | ⟨_, _, hts, heq⟩ := ofTokens_cases h
  · cases heq
  · cases heq
  · cases (of_instruction hop).1
  · cases heq
    exact hts

theorem ofTokens_ne_pragma {ts : List (List Char)} {v : UInt8} : ofTokens ts ≠ .ok (.pragma v) := by
  intro h
  obtain ⟨-, heq⟩ | ⟨_, -, -, heq⟩ | ⟨k, _, -, hop⟩ | ⟨_, _, -, heq⟩ := ofTokens_cases h
  · cases heq
  · cases heq
  · cases (of_instruction hop).1
  · cases heq

/-- A line of which no comment is left is a pragma, or is read by its tokens. -/
theorem lineOfChars_cases {text : List Char} {op : Op String} (h : lineOfChars text = .ok op)
    (hempty : op ≠ .empty) (hcomment : ∀ note, op ≠ .comment note) :
    Text.trim text ≠ [] ∧ startsComment (Text.trim text) = false ∧
      ((pragmaWord.isPrefixOf (Text.trim text) = true ∧ pragma (Text.trim text) = .ok op) ∨
        (pragmaWord.isPrefixOf (Text.trim text) = false ∧
          ∃ ts, tokens? (Text.trim text) = some ts ∧ ofTokens ts = .ok op)) := by
  unfold lineOfChars at h
  dsimp only at h
  split at h
  · cases h
    exact absurd rfl hempty
  · rename_i hne
    split at h
    · cases h
      exact absurd rfl (hcomment _)
    · rename_i hstart
      refine ⟨by simpa using hne, by simpa using hstart, ?_⟩
      split at h
      · rename_i hpragma
        exact .inl ⟨hpragma, h⟩
      · rename_i hpragma
        split at h
        · rename_i ts hts
          exact .inr ⟨Bool.eq_false_iff.2 hpragma, ts, hts, h⟩
        · cases h

/-- How a line is read when a comment is written behind it. -/
theorem lineOfChars_comment {text : List Char} (hne : Text.trim text ≠ [])
    (hstart : startsComment (Text.trim text) = false) (note : List Char) :
    ∃ note',
      Text.trim (text ++ ' ' :: '/' :: '/' :: note) =
        Text.trim text ++ (text.rtakeWhile isSpace ++ ' ' :: '/' :: '/' :: note') ∧
      lineOfChars (text ++ ' ' :: '/' :: '/' :: note) =
        if pragmaWord.isPrefixOf (Text.trim text) then
          pragma (Text.trim (text ++ ' ' :: '/' :: '/' :: note))
        else
          match tokens? (Text.trim (text ++ ' ' :: '/' :: '/' :: note)) with
          | some ts => ofTokens ts
          | none => .error .unterminatedString := by
  obtain ⟨note', htrim⟩ := trim_comment hne note
  have hspace {c} (hc : isSpace c = false) :
      (text.rtakeWhile isSpace ++ ' ' :: '/' :: '/' :: note').head? ≠ some c := by
    intro hhead
    cases htrail : text.rtakeWhile isSpace with
    | nil =>
      rw [htrail] at hhead
      cases hhead
      cases hc
    | cons d ds =>
      have hd : isSpace d = true := List.mem_rtakeWhile_imp (htrail ▸ List.mem_cons_self)
      rw [htrail] at hhead
      cases hhead
      cases hc.symm.trans hd
  have hcomment : startsComment (Text.trim (text ++ ' ' :: '/' :: '/' :: note)) = false := by
    obtain ⟨c, cs, hcs⟩ := List.exists_cons_of_ne_nil hne
    rw [htrim, hcs, startsComment_append c cs (hspace rfl), ← hcs, hstart]
  have hpragma : pragmaWord.isPrefixOf (Text.trim (text ++ ' ' :: '/' :: '/' :: note)) =
      pragmaWord.isPrefixOf (Text.trim text) := by
    have hword : Spaceless pragmaWord := spaceless_of_all (by decide)
    rw [htrim, isPrefixOf_append fun c hc => hspace (hword c hc)]
  refine ⟨note', htrim, ?_⟩
  have hempty : (Text.trim (text ++ ' ' :: '/' :: '/' :: note)).isEmpty = false := by
    simp [htrim]
  rw [lineOfChars, hempty, hcomment, hpragma]
  rfl

/-! ## Pragmas -/

theorem words_spaces {sp : List Char} (h : ∀ c ∈ sp, isSpace c = true) : Text.words sp = [] := by
  induction sp with
  | nil => rfl
  | cons c sp ih =>
    obtain ⟨hc, hsp⟩ := List.forall_mem_cons.1 h
    have hwords := Text.words_append hc [] sp
    rw [ih hsp] at hwords
    exact hwords

theorem words_trail {sp : List Char} (h : ∀ c ∈ sp, isSpace c = true) (cs : List Char) :
    Text.words (cs ++ sp) = Text.words cs := by
  cases sp with
  | nil => rw [List.append_nil]
  | cons c sp =>
    obtain ⟨hc, hsp⟩ := List.forall_mem_cons.1 h
    rw [Text.words_append hc, words_spaces hsp, List.append_nil]

theorem words_ne_nil {c : Char} (hc : isSpace c = false) (cs : List Char) :
    Text.words (c :: cs) ≠ [] := by
  obtain ⟨w, ws, hcs⟩ := List.exists_cons_of_ne_nil (Text.pieces_ne_nil isSpace cs)
  simp [Text.words, Text.pieces, hcs, hc]

theorem pragma_length {cs : List Char} {op : Op String} (h : pragma cs = .ok op) :
    (Text.words cs).length = 3 := by
  unfold pragma at h
  split at h
  · rename_i hwords
    rw [hwords]
    rfl
  · cases h

theorem pragma_of_length {cs : List Char} (h : (Text.words cs).length ≠ 3) :
    pragma cs = .error (.badPragma (String.ofList cs)) := by
  unfold pragma
  split
  · rename_i hwords
    rw [hwords] at h
    exact absurd rfl h
  · rfl

/-- With a comment behind it, a pragma has a word too many. -/
theorem pragma_comment {cs sp : List Char} {op : Op String} (h : pragma cs = .ok op)
    (hsp : ∀ c ∈ sp, isSpace c = true) (note : List Char) :
    pragma (cs ++ (sp ++ ' ' :: '/' :: '/' :: note)) =
      .error (.badPragma (String.ofList (cs ++ (sp ++ ' ' :: '/' :: '/' :: note)))) := by
  have hwords : Text.words (cs ++ (sp ++ ' ' :: '/' :: '/' :: note)) =
      Text.words cs ++ Text.words ('/' :: '/' :: note) := by
    rw [← List.append_assoc, Text.words_append (by rfl), words_trail hsp]
  have hnote := List.length_pos_iff.2 (words_ne_nil (c := '/') rfl ('/' :: note))
  refine pragma_of_length ?_
  rw [hwords, List.length_append, pragma_length h]
  omega

/-! ## Comments -/

theorem tokens?_blanks {sp : List Char} (h : ∀ c ∈ sp, isBlank c = true) (note : List Char) :
    tokens? (sp ++ ' ' :: '/' :: '/' :: note) = some [] := by
  induction sp with
  | nil => rw [List.nil_append, tokens?_blank rfl, tokens?_comment]
  | cons c sp ih =>
    obtain ⟨hc, hsp⟩ := List.forall_mem_cons.1 h
    rw [List.cons_append, tokens?_blank hc, ih hsp]

/-- A token that ends in white space is not quoted. -/
theorem IsToken.head?_ne_quote {t : List Char} (h : IsToken t) {c : Char}
    (hlast : t.getLast? = some c) (hc : isSpace c = true) : t.head? ≠ some '"' := by
  cases h with
  | bare _ hquote _ => simpa using hquote
  | quoted hclose =>
    rw [List.getLast?_cons, closeQuote?_getLast? hclose] at hlast
    cases hlast
    cases hc

/-- White space that is no blank makes another line of the tokens it comes to. -/
theorem ofTokens_ne {ts ts' : List (List Char)} {sp : List Char} {op : Op String}
    (h : ofTokens ts = .ok op) (htokens : ∀ t ∈ ts', IsToken t)
    (hsp : ∀ c ∈ sp, isSpace c = true) (hblank : ∃ c ∈ sp, isBlank c = false)
    (hflat : ts'.flatten = ts.flatten ++ sp.filter (!isBlank ·)) : ofTokens ts' ≠ .ok op := by
  intro h'
  have hne : sp.filter (!isBlank ·) ≠ [] := by
    obtain ⟨c, hc, hcb⟩ := hblank
    exact List.ne_nil_of_mem (List.mem_filter.2 ⟨hc, by simp [hcb]⟩)
  -- The last token ends in white space, so no quote closes it.
  obtain ⟨t, ht, hquote, hspace⟩ : ∃ t ∈ ts', t.head? ≠ some '"' ∧ ¬ Spaceless t := by
    have hend := List.getLast?_eq_some_getLast hne
    have hs := hsp _ (List.mem_filter.1 (List.getLast_mem hne)).1
    generalize (sp.filter (!isBlank ·)).getLast hne = s at hend hs
    have hts' : ts' ≠ [] := by
      rintro rfl
      exact hne (List.append_eq_nil_iff.1 hflat.symm).2
    have hlast := hflat
    rw [← List.dropLast_append_getLast hts', List.flatten_append, List.flatten_singleton] at hlast
    have htoken := htokens _ (List.getLast_mem hts')
    have hends : (ts'.getLast hts').getLast? = some s := by
      rw [← List.getLast?_append_of_ne_nil ts'.dropLast.flatten htoken.ne_nil, hlast,
        List.getLast?_append_of_ne_nil _ hne, hend]
    refine ⟨_, List.getLast_mem hts', htoken.head?_ne_quote hends hs, fun hspaceless => ?_⟩
    cases (hspaceless s (List.mem_of_getLast? hends)).symm.trans hs
  obtain ⟨name, args, hts', rfl⟩ := ofTokens_space h' ht hquote hspace
  have hts := ofTokens_instr h
  rw [hts', ← hts, List.self_eq_append_right] at hflat
  exact hne hflat

/-- A comment behind a line is ignored, unless the line is a pragma, which is refused then, or ends
in white space other than blanks and has no comment of its own. -/
theorem trailing_comment_ignored {t : String} {op : Op String} (h : line t = .ok op)
    (hempty : op ≠ .empty) (hcomment : ∀ note, op ≠ .comment note) (c : String) :
    (∀ v, op = .pragma v →
      line (t ++ " //" ++ c) =
        .error (.badPragma (String.ofList (Text.trim (t ++ " //" ++ c).toList)))) ∧
    ((∀ v, op ≠ .pragma v) →
      (line (t ++ " //" ++ c) = .ok op ↔
        (∀ a ∈ t.toList.rtakeWhile isSpace, isBlank a = true) ∨
          Commented (Text.trim t.toList))) := by
  have htext : (t ++ " //" ++ c).toList = t.toList ++ ' ' :: '/' :: '/' :: c.toList := by
    rw [String.toList_append, String.toList_append, List.append_assoc]
    rfl
  have hsp : ∀ a ∈ t.toList.rtakeWhile isSpace, isSpace a = true :=
    fun a ha => List.mem_rtakeWhile_imp ha
  obtain ⟨hne, hstart, hcases⟩ := lineOfChars_cases h hempty hcomment
  obtain ⟨note, htrim, hline⟩ := lineOfChars_comment hne hstart c.toList
  rw [line, htext, hline]
  obtain ⟨hword, hpragma⟩ | ⟨hword, ts, hts, hop⟩ := hcases
  · refine ⟨fun v _ => ?_, fun hother => ?_⟩
    · rw [if_pos hword, htrim, pragma_comment hpragma hsp]
    · obtain ⟨v, rfl⟩ := pragma_of_ok hpragma
      exact absurd rfl (hother v)
  · refine ⟨fun v hv => absurd (hv ▸ hop) ofTokens_ne_pragma, fun _ => ?_⟩
    have hcuts := cuts_of_tokens? hts
    rw [hword, htrim]
    constructor
    · intro hsame
      by_contra hnot
      simp only [not_or, not_forall] at hnot
      obtain ⟨⟨a, ha, hablank⟩, hnone⟩ := hnot
      obtain ⟨ts', hts', hflat⟩ := hcuts.tokens?_spaces hnone hsp note
      rw [hts'] at hsame
      refine ofTokens_ne hop (fun u hu => (isToken_of_mem hts' u hu).1) hsp
        ⟨a, ha, by simpa using hablank⟩ hflat hsame
    · rintro (hblank | ⟨pre, rest, hsplit, hpre⟩)
      · have hbreak : Breaks (t.toList.rtakeWhile isSpace ++ ' ' :: '/' :: '/' :: note) :=
          breaks_append (fun a ha => hblank a (List.mem_of_head? ha))
            fun a ha => by cases ha; rfl
        rw [hcuts.tokens?_append hbreak (tokens?_blanks hblank note)]
        exact hop
      · rw [hts] at hpre
        rw [hsplit, (cuts_of_tokens? hpre).tokens?_commented (hsplit ▸ hts)]
        exact hop

/-- Two slashes in quotes start no comment, and a quote in a comment is never closed. -/
theorem trailing_comment_ignored_quoted :
    line "byte \"a // b\"\t" = .ok (.bytes .pseudo [97, 32, 47, 47, 32, 98]) ∧
      line ("byte \"a // b\"\t" ++ " //" ++ " \"note") =
        .ok (.bytes .pseudo [97, 32, 47, 47, 32, 98]) := by
  have hline : line "byte \"a // b\"\t" = .ok (.bytes .pseudo [97, 32, 47, 47, 32, 98]) := by
    decide +kernel
  have hignored := trailing_comment_ignored hline nofun nofun " \"note"
  exact ⟨hline, (hignored.2 nofun).2 (.inl (List.all_eq_true.1 (by decide)))⟩

/-- A pragma is refused for its comment, and a number for the no-break space in front of one. -/
theorem trailing_comment_read :
    (line "#pragma version 8" = .ok (.pragma 8) ∧
      line ("#pragma version 8" ++ " //" ++ " note") =
        .error (.badPragma "#pragma version 8 // note")) ∧
    (line "int 1\u00a0" = .ok (.int .pseudo 1) ∧
      line ("int 1\u00a0" ++ " //" ++ "c") = .error (.badInteger "1\u00a0")) := by
  decide +kernel

end Teal.Source
