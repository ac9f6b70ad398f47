import CppMisc.Library.Separated
import CppMisc.EpollWebsocket.Bounds

/-!
# The lines that `readline` finds

`readline` is called with the level that the call before returned, so it walks over the whole text. Here it
runs on any buffer that has a zero byte somewhere, with an unbounded `linebuf`. The lines that it finds and
the rest that it leaves in `linebuf` at the end are the parts of the text between the line ends
(`reads_separated`), which are determined by it. Every level that it returns is behind the one that it was
given, by two bytes at least, so the loop of `handshark` ends after a round for each two bytes
(`handsharkEnd_isSome`).

A `sockitem` holds such a buffer, and where the loop of `handshark` with its arrays returns it goes the same
way as the loop here (`handsharkEnd_of_handsharkLoop`).
-/

set_option autoImplicit false

namespace CppMisc.EpollWebsocket

open CppMisc.Library

/-- A buffer with a zero byte behind its text. -/
structure NulTerminated where
  allbuf : Memory
  zero : ∃ n, allbuf n = 0

namespace NulTerminated

instance (b : NulTerminated) : DecidablePred fun n => b.allbuf n = 0 :=
  fun n => inferInstanceAs (Decidable (b.allbuf n = 0))

/-- `strlen(allbuf)`. -/
def strlen (b : NulTerminated) : Nat := Nat.find b.zero

/-- The text in front of the zero byte. -/
def text (b : NulTerminated) : List UInt8 := b.allbuf.load 0 b.strlen

/-- `readline`; `none` stands for the return value -1. -/
def readline (b : NulTerminated) (level : Nat) : Option Nat × List UInt8 :=
  readlineLoop b.allbuf (b.strlen - level) level

end NulTerminated

/-- The calls of `readline` from `level` on, each with the level that the one before returned: the lines
that they find, and what is in `linebuf` when -1 is returned. -/
inductive Reads (b : NulTerminated) : Nat → List (List UInt8) → List UInt8 → Prop
  | last {level : Nat} {rest : List UInt8} : b.readline level = (none, rest) → Reads b level [] rest
  | next {level level' : Nat} {line rest : List UInt8} {lines : List (List UInt8)} :
      b.readline level = (some level', line) → Reads b level' lines rest →
      Reads b level (line :: lines) rest

/-- How the loop of `handshark` ends. -/
inductive LoopEnd where
  /-- With the `break` behind the answer to the line. -/
  | key (line : List UInt8)
  /-- With an empty line at `level`. -/
  | blankLine (level : Nat)
  /-- With -1 in `level`. -/
  | endOfText

/-- The loop of `handshark` with an unbounded `linebuf`; `none` if it goes on after the rounds. -/
def handsharkEnd (b : NulTerminated) : Nat → Nat → Option LoopEnd
  | 0, _ => none
  | rounds + 1, level =>
      let line := (b.readline level).2
      if keyName <:+: line then some (.key line)
      else
        match (b.readline level).1 with
        | none => some .endOfText
        | some level' =>
            if b.allbuf level' = 13 ∧ b.allbuf (level' + 1) = 10 then some (.blankLine level')
            else handsharkEnd b rounds level'

/-! ## The text of a buffer -/

section Text

variable (b : NulTerminated)

theorem NulTerminated.length_text : b.text.length = b.strlen := Memory.length_load _ _ _

theorem NulTerminated.holds_text : b.allbuf.Holds 0 (b.text ++ [0]) := by
  refine Memory.holds_append_iff.2 ⟨?_, ?_⟩
  · apply Memory.load_eq_iff.1
    rw [b.length_text]
    rfl
  · rw [b.length_text, Nat.zero_add, Memory.holds_cons_iff]
    exact ⟨Nat.find_spec b.zero, fun i hi => absurd hi (Nat.not_lt_zero i)⟩

theorem NulTerminated.zero_notMem_text : 0 ∉ b.text := by
  intro h
  obtain ⟨i, hi, hzero⟩ := List.mem_iff_getElem.1 h
  have hbyte := (Memory.holds_append_iff.1 b.holds_text).1 i hi
  rw [Nat.zero_add, hzero] at hbyte
  rw [b.length_text] at hi
  exact Nat.find_min b.zero hi hbyte

end Text

/-- The text `s` is still before `readline` at `level`. -/
structure Ahead (b : NulTerminated) (level : Nat) (s : List UInt8) : Prop where
  size : b.strlen = level + s.length
  held : b.allbuf.Holds level (s ++ [0])

theorem ahead_drop {b : NulTerminated} {level : Nat} (h : level ≤ b.strlen) :
    Ahead b level (b.text.drop level) := by
  have hlength := b.length_text
  refine ⟨?_, ?_⟩
  · rw [List.length_drop]
    omega
  · have hheld := b.holds_text
    rw [← List.take_append_drop level b.text, List.append_assoc] at hheld
    have hdrop := (Memory.holds_append_iff.1 hheld).2
    rwa [List.length_take, Nat.zero_add, Nat.min_eq_left (hlength ▸ h)] at hdrop

/-- `readline` takes the first line off the text ahead. -/
theorem Ahead.readline {b : NulTerminated} {level : Nat} {s : List UInt8} (h : Ahead b level s) :
    b.readline level = ((splitLine s).map fun r => level + r.1.length + 2, firstLine s) := by
  rw [NulTerminated.readline, h.size, Nat.add_sub_cancel_left]
  exact readlineLoop_eq h.held

theorem Ahead.next {b : NulTerminated} {level : Nat} {s line rest : List UInt8} (h : Ahead b level s)
    (hsplit : splitLine s = some (line, rest)) : Ahead b (level + line.length + 2) rest := by
  have hlength := length_of_splitLine hsplit
  have hsize := h.size
  exact ⟨by omega, holds_rest h.held hsplit⟩

/-! ## The lines -/

/-- A carriage return and a line feed do not overlap with themselves. -/
theorem unbordered_crlf : Unbordered crlf := by
  intro u hne hfront hback
  rw [List.prefix_iff_eq_take] at hfront
  rw [List.suffix_iff_eq_drop] at hback
  have hlength : u.length ≤ 2 := by
    rw [hfront, List.length_take]
    exact Nat.min_le_right _ _
  have hpos := List.length_pos_iff.2 hne
  rcases (by omega : u.length = 1 ∨ u.length = 2) with h | h
  · rw [h] at hfront hback
    exact absurd (hfront.symm.trans hback) (by decide)
  · rw [h] at hfront
    exact hfront

theorem firstLine_prefix (s : List UInt8) : firstLine s <+: s := by
  rw [firstLine]
  cases hsplit : splitLine s with
  | none => exact List.prefix_refl s
  | some r =>
      have hs := splitLine_eq hsplit
      exact ⟨crlf ++ r.2, hs.symm⟩

/-- Neither the line that is cut off nor a text that is not cut has a line end in it. -/
theorem noCrlf_firstLine (s : List UInt8) : ¬ crlf <:+: firstLine s := by
  induction s with
  | nil => exact fun h => absurd (List.eq_nil_of_infix_nil h) (by decide)
  | cons b s ih =>
      by_cases hend : b = 13 ∧ s.head? = some 10
      · rw [firstLine_of_crlf hend]
        exact fun h => absurd (List.eq_nil_of_infix_nil h) (by decide)
      · rw [firstLine_cons hend, List.infix_cons_iff, prefix_crlf_cons_iff]
        rintro (⟨hcr, hlf⟩ | hrest)
        · -- the first byte of the line is the first of the text
          obtain ⟨tail, htail⟩ := firstLine_prefix s
          apply hend
          rw [← htail, List.head?_append, hlf]
          exact ⟨hcr, rfl⟩
        · exact ih hrest

/-- The lines read from a text, and the rest, are its parts. -/
theorem Ahead.reads {b : NulTerminated} {n : Nat} : ∀ {level : Nat} {s : List UInt8}, s.length ≤ n →
    Ahead b level s → ∃ lines rest, Reads b level lines rest ∧ Separated crlf s (lines ++ [rest]) := by
  induction n with
  | zero =>
      intro level s hlength h
      obtain rfl := List.length_eq_zero_iff.1 (Nat.le_zero.1 hlength)
      exact ⟨[], [], .last h.readline, .single (noCrlf_firstLine [])⟩
  | succ n ih =>
      intro level s hlength h
      have hread := h.readline
      have hfree := noCrlf_firstLine s
      rw [firstLine] at hread hfree
      cases hsplit : splitLine s with
      | none =>
          rw [hsplit] at hread hfree
          exact ⟨[], s, .last hread, .single hfree⟩
      | some r =>
          obtain ⟨line, tail⟩ := r
          rw [hsplit] at hread hfree
          have hshorter := length_of_splitLine hsplit
          obtain ⟨lines, rest, hreads, hparts⟩ := ih (by omega) (h.next hsplit)
          refine ⟨line :: lines, rest, .next hread hreads, ?_⟩
          rw [splitLine_eq hsplit]
          exact hparts.cons hfree

/-- The level behind a line is the one in front of it and the length of the line and its end. -/
theorem readline_bounds {b : NulTerminated} {level level' : Nat} {line : List UInt8}
    (h : b.readline level = (some level', line)) :
    level' = level + line.length + 2 ∧ level' ≤ b.strlen := by
  rcases Nat.lt_or_ge b.strlen level with hbehind | hle
  · rw [NulTerminated.readline, Nat.sub_eq_zero_of_le hbehind.le] at h
    cases h
  · have hahead := ahead_drop hle
    rw [hahead.readline, firstLine] at h
    cases hsplit : splitLine (b.text.drop level) with
    | none =>
        rw [hsplit] at h
        cases h
    | some r =>
        simp only [hsplit, Option.map_some, Option.elim_some, Prod.mk.injEq, Option.some.injEq] at h
        obtain ⟨rfl, rfl⟩ := h
        have hlength := length_of_splitLine hsplit
        have hsize := hahead.size
        exact ⟨rfl, by omega⟩

/-! ## The loop of `handshark` -/

/-- A round that goes on moves the level by two bytes at least. -/
theorem handsharkEnd_isSome {b : NulTerminated} {rounds : Nat} : ∀ {level : Nat}, level ≤ b.strlen →
    b.strlen < level + 2 * rounds → (handsharkEnd b rounds level).isSome := by
  induction rounds with
  | zero =>
      intro level hle hlt
      omega
  | succ rounds ih =>
      intro level hle hlt
      rw [handsharkEnd]
      split
      · rfl
      · split
        · rfl
        · next level' hread =>
            split
            · rfl
            · obtain ⟨hnext, hinside⟩ := readline_bounds (Prod.ext hread rfl)
              exact ih hinside (by omega)

/-- **Splitting at line ends.** On every terminated buffer the calls of `readline` from level 0 on come to an
end. The lines that they return in order, with the rest that is left in `linebuf` when -1 is returned, are
the parts of the text between the line ends, and the text has no other parts. A level that is returned is
behind the one passed in and not behind the text, and so the loop of `handshark` ends. -/
theorem readline_splits_lines (b : NulTerminated) :
    (∃ lines rest, Reads b 0 lines rest ∧ Separated crlf b.text (lines ++ [rest]) ∧
        ∀ parts, Separated crlf b.text parts → parts = lines ++ [rest]) ∧
      (∀ level level' line, b.readline level = (some level', line) →
        level < level' ∧ level' ≤ b.strlen) ∧
      (handsharkEnd b (b.strlen / 2 + 1) 0).isSome := by
  have hahead : Ahead b 0 b.text := ahead_drop (Nat.zero_le b.strlen)
  obtain ⟨lines, rest, hreads, hparts⟩ := hahead.reads (Nat.le_refl b.text.length)
  refine ⟨⟨lines, rest, hreads, hparts, fun parts h => hparts.unique unbordered_crlf h⟩, ?_, ?_⟩
  · intro level level' line hread
    obtain ⟨hnext, hinside⟩ := readline_bounds hread
    exact ⟨by omega, hinside⟩
  · apply handsharkEnd_isSome (Nat.zero_le b.strlen)
    omega

/-! ## The buffer of a connection -/

/-- What `handshark` has done when its loop has ended. -/
def LoopEnd.outcome (lib : OpenSsl) (si : Sockitem) : LoopEnd → Option Sockitem
  | .key line => (answerKey lib line).map (switchProtocols si)
  | .blankLine _ => some si
  | .endOfText => some si

theorem text_rlength (si : Sockitem) : text si (2 * bufferLength) = 0 := by
  have houtside : ¬ 2 * bufferLength < bufferLength := by omega
  rw [text, if_neg houtside, if_neg (Nat.lt_irrefl _)]

/-- The buffer of a `sockitem` is terminated by `rlength` at the latest. -/
def textBuffer (si : Sockitem) : NulTerminated := ⟨text si, 2 * bufferLength, text_rlength si⟩

theorem strlen_textBuffer_le (si : Sockitem) : (textBuffer si).strlen ≤ 2 * bufferLength :=
  Nat.find_min' _ (text_rlength si)

theorem readline_textBuffer (si : Sockitem) (level : Nat) :
    (textBuffer si).readline level = readline (text si) level := by
  have hle := strlen_textBuffer_le si
  have hstrlen : (text si).strlen 0 (2 * bufferLength + 1) = (textBuffer si).text.length := by
    apply Memory.strlen_of_holds
    · rw [NulTerminated.length_text]
      omega
    · exact (textBuffer si).zero_notMem_text
    · exact (textBuffer si).holds_text
  rw [readline, hstrlen, NulTerminated.length_text]
  rfl

/-- Where the loop of `handshark` returns, it ends as the loop with an unbounded `linebuf` does. -/
theorem handsharkEnd_of_handsharkLoop {lib : OpenSsl} {si t : Sockitem} {rounds : Nat} :
    ∀ {level : Nat}, handsharkLoop lib si rounds level = some t →
      ∃ e, handsharkEnd (textBuffer si) rounds level = some e ∧ e.outcome lib si = some t := by
  induction rounds with
  | zero =>
      intro level h
      cases h
  | succ rounds ih =>
      intro level h
      rw [handsharkLoop] at h
      rw [handsharkEnd, readline_textBuffer]
      generalize readline (text si) level = read at h ⊢
      obtain ⟨next, line⟩ := read
      split at h
      · cases h
      · split at h
        · next hkey =>
            rw [if_pos hkey]
            split at h
            · cases h
            · exact ⟨_, rfl, h⟩
        · next hkey =>
            rw [if_neg hkey]
            cases next with
            | none => exact ⟨_, rfl, h⟩
            | some level' =>
                by_cases hend : text si level' = 13 ∧ text si (level' + 1) = 10
                · exact ⟨_, if_pos hend, (if_pos hend).symm.trans h⟩
                · obtain ⟨e, he, houtcome⟩ := ih ((if_neg hend).symm.trans h)
                  exact ⟨e, (if_neg hend).trans he, houtcome⟩

end CppMisc.EpollWebsocket
