import ManagedHeap.Text.Utf8

/-!
# Cutting texts

A cut of a text is its longest beginning of whole characters within a number of bytes
(`Utf8.Cuts`).  There is one for each number (`Cuts.unique`), and it is found by taking
characters as long as they fit: a buffer that is filled in this way gets the cut of what is
appended at the room that is left (`exists_cuts_fillWithin`).

A buffer that is filled piece by piece, with a space before each further piece, need not end
in a cut of the whole: if a character of several bytes is cut off, then the room it leaves
is filled by the pieces after it.  The text in the buffer always begins with the cut, and it
is the cut exactly if no piece follows the character that is cut off, or no room is left
(`truncates_appendPieces`).
-/

namespace ManagedHeap

namespace Utf8

variable {capacity room : Nat} {text more cut cut' out : String} {pieces : List String}

/-- `cut` is the longest beginning of a text that takes `capacity` bytes at most. -/
structure Cuts (capacity : Nat) (text cut : String) : Prop where
  begins : cut.toList <+: text.toList
  fits : cut.utf8ByteSize ≤ capacity
  longest : ∀ p : String, p.toList <+: text.toList → p.utf8ByteSize ≤ capacity →
    p.toList <+: cut.toList

/-! ## Beginnings -/

theorem begins_iff : cut.toList <+: text.toList ↔ ∃ rest, text = cut ++ rest := by
  constructor
  · rintro ⟨rest, hrest⟩
    exact ⟨String.ofList rest, String.toList_inj.mp (by simp [← hrest])⟩
  · rintro ⟨rest, rfl⟩
    exact ⟨rest.toList, by simp⟩

theorem begins_append (text more : String) : text.toList <+: (text ++ more).toList :=
  begins_iff.mpr ⟨more, rfl⟩

theorem size_le_of_begins (hbegins : cut.toList <+: text.toList) :
    cut.utf8ByteSize ≤ text.utf8ByteSize := by
  obtain ⟨rest, rfl⟩ := begins_iff.mp hbegins
  rw [String.utf8ByteSize_append]
  exact Nat.le_add_right _ _

/-- Every character takes a byte, so a beginning of the same size is the whole. -/
theorem eq_of_begins (hbegins : cut.toList <+: text.toList)
    (hsize : text.utf8ByteSize ≤ cut.utf8ByteSize) : cut = text := by
  obtain ⟨rest, rfl⟩ := begins_iff.mp hbegins
  rw [String.utf8ByteSize_append] at hsize
  obtain rfl := String.utf8ByteSize_eq_zero_iff.mp (show rest.utf8ByteSize = 0 by omega)
  rw [String.append_empty]

/-- Of two beginnings, the one with fewer bytes is a beginning of the other. -/
theorem begins_of_size_le {p : String} (hp : p.toList <+: text.toList)
    (hbegins : cut.toList <+: text.toList) (hsize : p.utf8ByteSize ≤ cut.utf8ByteSize) :
    p.toList <+: cut.toList := by
  rcases List.prefix_or_prefix_of_prefix hp hbegins with hshort | hlong
  · exact hshort
  · exact eq_of_begins hlong hsize ▸ List.prefix_rfl

/-! ## Cuts -/

/-- A text that fits is its own cut. -/
theorem cuts_self (hfits : text.utf8ByteSize ≤ capacity) : Cuts capacity text text :=
  ⟨List.prefix_rfl, hfits, fun _ hp _ => hp⟩

theorem Cuts.unique (hc : Cuts capacity text cut) (hc' : Cuts capacity text cut') : cut = cut' :=
  eq_of_begins (hc'.longest cut hc.begins hc.fits)
    (size_le_of_begins (hc.longest cut' hc'.begins hc'.fits))

/-- What stands before a text takes its bytes from the capacity. -/
theorem Cuts.append_left (hc : Cuts room text cut) (out : String) :
    Cuts (out.utf8ByteSize + room) (out ++ text) (out ++ cut) where
  begins := by
    simp only [String.toList_append]
    exact (List.prefix_append_right_inj _).mpr hc.begins
  fits := by
    rw [String.utf8ByteSize_append]
    exact Nat.add_le_add_left hc.fits _
  longest p hp hsize := by
    rcases List.prefix_or_prefix_of_prefix hp (begins_append out text) with hshort | hlong
    · exact hshort.trans (begins_append out cut)
    · obtain ⟨rest, rfl⟩ := begins_iff.mp hlong
      rw [String.utf8ByteSize_append] at hsize
      simp only [String.toList_append] at hp ⊢
      exact (List.prefix_append_right_inj _).mpr (hc.longest rest
        ((List.prefix_append_right_inj _).mp hp) (Nat.le_of_add_le_add_left hsize))

/-- Nothing that follows changes the cut once something is cut off, or no room is left. -/
theorem Cuts.append_right (hc : Cuts capacity text cut)
    (hover : capacity < text.utf8ByteSize ∨ cut.utf8ByteSize = capacity) (more : String) :
    Cuts capacity (text ++ more) cut where
  begins := hc.begins.trans (begins_append text more)
  fits := hc.fits
  longest p hp hsize := by
    rcases List.prefix_or_prefix_of_prefix hp (begins_append text more) with hshort | hlong
    · exact hc.longest p hshort hsize
    · have htext : text.utf8ByteSize ≤ capacity := Nat.le_trans (size_le_of_begins hlong) hsize
      obtain rfl := hc.unique (cuts_self htext)
      rcases hover with hover | hfull
      · exact absurd hover (Nat.not_lt_of_le htext)
      · exact eq_of_begins hlong (hfull ▸ hsize) ▸ List.prefix_rfl

/-- A buffer within its capacity stays there with a cut at the room that is left. -/
theorem Cuts.size_append_le (hc : Cuts (capacity - out.utf8ByteSize) text cut)
    (hfits : out.utf8ByteSize ≤ capacity) : (out ++ cut).utf8ByteSize ≤ capacity := by
  have hcut := hc.fits
  rw [String.utf8ByteSize_append]
  omega

/-! ## Filling a buffer -/

/-- Appends the longest beginning of some characters that has room in `room` bytes. -/
def fillAfter (out : String) : Nat → List Char → String
  | _, [] => out
  | room, c :: rest =>
    if c.utf8Size ≤ room then fillAfter (out.push c) (room - c.utf8Size) rest else out

/-- Appends as many characters of a text as leave the result within `capacity` bytes. -/
def fillWithin (capacity : Nat) (out text : String) : String :=
  fillAfter out (capacity - out.utf8ByteSize) text.toList

/-- Characters are appended up to the first one that finds no room. -/
theorem exists_cuts_fillAfter (out : String) (room : Nat) (chars : List Char) :
    ∃ kept, Cuts room (String.ofList chars) kept ∧ fillAfter out room chars = out ++ kept := by
  induction chars generalizing out room with
  | nil => exact ⟨"", cuts_self (Nat.zero_le _), by simp [fillAfter]⟩
  | cons c rest ih =>
      unfold fillAfter
      split
      case isTrue hfits =>
          obtain ⟨kept, hc, hkept⟩ := ih (out.push c) (room - c.utf8Size)
          refine ⟨String.singleton c ++ kept, ?_, ?_⟩
          · have hroom : (String.singleton c).utf8ByteSize + (room - c.utf8Size) = room := by
              rw [String.utf8ByteSize_singleton]
              omega
            rw [String.ofList_cons, ← hroom]
            exact hc.append_left _
          · rw [hkept, String.push_eq_append, String.append_assoc]
      case isFalse hover =>
          refine ⟨"", ⟨List.nil_prefix, Nat.zero_le _, fun p hp hsize => ?_⟩, by simp⟩
          rw [String.toList_ofList] at hp
          rcases List.prefix_cons_iff.mp hp with hnil | ⟨l, hcons, -⟩
          · rw [hnil]
            exact List.nil_prefix
          · -- the first character alone takes more than the room
            have hsize' : p.utf8ByteSize = c.utf8Size + (String.ofList l).utf8ByteSize := by
              rw [← String.ofList_toList (s := p), hcons, String.ofList_cons,
                String.utf8ByteSize_append, String.utf8ByteSize_singleton]
            omega

/-- What is appended is the cut at the room that is left. -/
theorem exists_cuts_fillWithin (capacity : Nat) (out text : String) :
    ∃ kept, Cuts (capacity - out.utf8ByteSize) text kept ∧
      fillWithin capacity out text = out ++ kept := by
  simpa [fillWithin] using exists_cuts_fillAfter out (capacity - out.utf8ByteSize) text.toList

/-- A text in an empty buffer is cut at the capacity. -/
theorem cuts_fillWithin_empty (capacity : Nat) (text : String) :
    Cuts capacity text (fillWithin capacity "" text) := by
  obtain ⟨kept, hc, hkept⟩ := exists_cuts_fillWithin capacity "" text
  rw [hkept, String.empty_append]
  simpa using hc

/-! ## Filling a buffer piece by piece -/

/-- Appends a space and a piece while the text is shorter than the capacity, and cuts what
does not fit. -/
def appendPieces (capacity : Nat) : List String → String → String
  | [], out => out
  | piece :: rest, out =>
    if capacity ≤ out.utf8ByteSize then out
    else appendPieces capacity rest (fillWithin capacity (out.push ' ') piece)

/-- The text that pieces leave in a buffer.  It begins with the cut of the whole text, and is
that cut exactly if all pieces but the last one fit, or the cut leaves no room. -/
structure Truncates (capacity : Nat) (pieces : List String) (text cut : String) : Prop where
  cuts : Cuts capacity (" ".intercalate pieces) cut
  begins : cut.toList <+: text.toList
  fits : text.utf8ByteSize ≤ capacity
  plain : text = cut ↔ (" ".intercalate pieces.dropLast).utf8ByteSize ≤ capacity ∨
    cut.utf8ByteSize = capacity

theorem fillWithin_push (capacity : Nat) (out piece : String)
    (hroom : out.utf8ByteSize < capacity) :
    ∃ kept, Cuts capacity (out ++ " " ++ piece) (out ++ " " ++ kept) ∧
      fillWithin capacity (out.push ' ') piece = out ++ " " ++ kept := by
  have hpush : out.push ' ' = out ++ " " := String.push_eq_append _
  obtain ⟨kept, hc, hkept⟩ := exists_cuts_fillWithin capacity (out ++ " ") piece
  have hsize : (out ++ " ").utf8ByteSize = out.utf8ByteSize + 1 := String.utf8ByteSize_append
  have hcapacity : (out ++ " ").utf8ByteSize + (capacity - (out ++ " ").utf8ByteSize) = capacity :=
    by omega
  refine ⟨kept, ?_, hpush ▸ hkept⟩
  have hleft := hc.append_left (out ++ " ")
  rwa [hcapacity] at hleft

theorem begins_appendPieces (capacity : Nat) (pieces : List String) (out : String) :
    out.toList <+: (appendPieces capacity pieces out).toList := by
  induction pieces generalizing out with
  | nil => exact List.prefix_rfl
  | cons piece rest ih =>
      unfold appendPieces
      split
      case isTrue => exact List.prefix_rfl
      case isFalse hroom =>
          obtain ⟨kept, -, hkept⟩ := fillWithin_push capacity out piece (Nat.lt_of_not_le hroom)
          refine .trans ?_ (ih _)
          rw [hkept, String.append_assoc]
          exact begins_append out _

theorem appendPieces_fits (pieces : List String) (hfits : out.utf8ByteSize ≤ capacity) :
    (appendPieces capacity pieces out).utf8ByteSize ≤ capacity := by
  induction pieces generalizing out with
  | nil => exact hfits
  | cons piece rest ih =>
      unfold appendPieces
      split
      case isTrue => exact hfits
      case isFalse hroom =>
          obtain ⟨kept, hc, hkept⟩ := fillWithin_push capacity out piece (Nat.lt_of_not_le hroom)
          exact ih (hkept ▸ hc.fits)

/-- Where there is room and a piece left, the room is used. -/
theorem appendPieces_ne (piece : String) (rest : List String)
    (hroom : out.utf8ByteSize < capacity) : appendPieces capacity (piece :: rest) out ≠ out := by
  intro heq
  unfold appendPieces at heq
  rw [if_neg (Nat.not_le_of_lt hroom)] at heq
  obtain ⟨kept, -, hkept⟩ := fillWithin_push capacity out piece hroom
  have hsize := size_le_of_begins (begins_appendPieces capacity rest
    (fillWithin capacity (out.push ' ') piece))
  rw [heq, hkept, String.utf8ByteSize_append, String.utf8ByteSize_append] at hsize
  have hspace : (" " : String).utf8ByteSize = 1 := rfl
  omega

theorem intercalate_append (first second : String) (rest : List String) :
    " ".intercalate (first :: second :: rest) =
      " ".intercalate ((first ++ " " ++ second) :: rest) := by
  cases rest with
  | nil => simp
  | cons third rest => simp only [String.intercalate_cons_cons, String.append_assoc]

theorem begins_intercalate (first : String) (rest : List String) :
    first.toList <+: (" ".intercalate (first :: rest)).toList := by
  cases rest with
  | nil => simp
  | cons second rest =>
      rw [String.intercalate_cons_cons, String.append_assoc]
      exact begins_append first _

/-- A buffer that holds the cut of what was written so far ends with the text that all pieces
leave. -/
theorem truncates_appendPieces (hc : Cuts capacity text out) (pieces : List String) :
    ∃ cut, Truncates capacity (text :: pieces) (appendPieces capacity pieces out) cut := by
  induction pieces generalizing text out with
  | nil =>
      refine ⟨out, ?_, List.prefix_rfl, hc.fits, fun _ => Or.inl (Nat.zero_le _), fun _ => rfl⟩
      simpa using hc
  | cons piece rest ih =>
      have hbegins := begins_appendPieces capacity (piece :: rest) out
      have hfits := appendPieces_fits (piece :: rest) hc.fits
      obtain ⟨more, hmore⟩ := begins_iff.mp (begins_intercalate text (piece :: rest))
      have hover (h : capacity < text.utf8ByteSize ∨ out.utf8ByteSize = capacity) :
          Cuts capacity (" ".intercalate (text :: piece :: rest)) out :=
        hmore ▸ hc.append_right h more
      by_cases hfull : capacity ≤ out.utf8ByteSize
      · -- the buffer is full
        have hsize : out.utf8ByteSize = capacity := Nat.le_antisymm hc.fits hfull
        refine ⟨out, hover (Or.inr hsize), hbegins, hfits, fun _ => Or.inr hsize, fun _ => ?_⟩
        rw [appendPieces, if_pos hfull]
      · have hroom := Nat.lt_of_not_le hfull
        by_cases hlong : capacity < text.utf8ByteSize
        · -- something was cut off before, and there is room for the next piece
          refine ⟨out, hover (Or.inl hlong), hbegins, hfits,
            fun heq => absurd heq (appendPieces_ne piece rest hroom), ?_⟩
          rintro (hsize | hsize)
          · rw [List.dropLast_cons_cons] at hsize
            have := size_le_of_begins (begins_intercalate text (piece :: rest).dropLast)
            omega
          · omega
        · -- nothing was cut off so far
          obtain rfl := hc.unique (cuts_self (Nat.le_of_not_lt hlong))
          obtain ⟨kept, hkept, happend⟩ := fillWithin_push capacity out piece hroom
          obtain ⟨cut, ht⟩ := ih (happend ▸ hkept)
          rw [appendPieces, if_neg hfull]
          refine ⟨cut, intercalate_append out piece rest ▸ ht.cuts, ht.begins, ht.fits, ?_⟩
          rw [ht.plain]
          cases rest with
          | nil =>
              refine iff_of_true (Or.inl (Nat.zero_le _)) (Or.inl ?_)
              simpa using hc.fits
          | cons next rest =>
              rw [List.dropLast_cons_cons, List.dropLast_cons_cons, List.dropLast_cons_cons,
                intercalate_append]

/-- Pieces in an empty buffer leave a text that begins with the cut of the whole. -/
theorem truncates_pieces (capacity : Nat) (first : String) (pieces : List String) :
    ∃ cut, Truncates capacity (first :: pieces)
      (appendPieces capacity pieces (fillWithin capacity "" first)) cut :=
  truncates_appendPieces (cuts_fillWithin_empty capacity first) pieces

end Utf8

end ManagedHeap
