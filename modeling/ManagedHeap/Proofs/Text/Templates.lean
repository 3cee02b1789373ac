import Mathlib.Data.List.Induction

/-!
# What a template expands to

A template is read once, from left to right.  A percent sign and the digit after it stand for
an argument; a percent sign before anything else, or at the end, stands for itself, and so does
every other character.  What was put in for an argument is not read again: an expansion is a
sequence of pieces of the template, each replaced by a text (`Template.Expands`).

So the expansion of two templates in a row is that of the first and that of the second, unless
the cut goes through such a pair of characters (`Template.Expands.append`).
-/

namespace ManagedHeap

namespace Template

variable {shown : List String} {template first second : List Char} {a b out out' : String}

/-- The text begins with a digit. -/
def BeginsWithDigit (template : List Char) : Prop :=
  ∃ d rest, template = d :: rest ∧ d.isDigit = true

/-- The text that a digit stands for. -/
def argument (shown : List String) (d : Char) : String :=
  shown.getD (d.toNat - '0'.toNat) "undefined"

/-- The text is the template with the texts of its arguments put in. -/
inductive Expands (shown : List String) : List Char → String → Prop
  | nil : Expands shown [] ""
  | argument {d : Char} {rest : List Char} {out : String} (hdigit : d.isDigit = true)
      (hrest : Expands shown rest out) :
      Expands shown ('%' :: d :: rest) (argument shown d ++ out)
  | copied {c : Char} {rest : List Char} {out : String}
      (hplain : ¬(c = '%' ∧ BeginsWithDigit rest)) (hrest : Expands shown rest out) :
      Expands shown (c :: rest) (String.singleton c ++ out)

theorem beginsWithDigit_cons {d : Char} {rest : List Char} :
    BeginsWithDigit (d :: rest) ↔ d.isDigit = true := by
  simp [BeginsWithDigit]

theorem not_beginsWithDigit_nil : ¬BeginsWithDigit [] := by
  simp [BeginsWithDigit]

/-- Every template can be expanded. -/
theorem exists_expands (shown : List String) (template : List Char) :
    ∃ out, Expands shown template out := by
  induction template using List.twoStepInduction with
  | nil => exact ⟨_, .nil⟩
  | singleton c => exact ⟨_, .copied (fun hpair => not_beginsWithDigit_nil hpair.2) .nil⟩
  | cons_cons c d rest hbehind hnext =>
      by_cases hpair : c = '%' ∧ d.isDigit = true
      · obtain ⟨rfl, hdigit⟩ := hpair
        obtain ⟨out, hout⟩ := hbehind
        exact ⟨_, .argument hdigit hout⟩
      · obtain ⟨out, hout⟩ := hnext d
        exact ⟨_, .copied (by rwa [beginsWithDigit_cons]) hout⟩

/-- There is one expansion of a template. -/
theorem Expands.unique (h : Expands shown template out) (h' : Expands shown template out') :
    out = out' := by
  induction h generalizing out' with
  | nil =>
      cases h'
      rfl
  | argument hdigit _ ih =>
      cases h' with
      | argument _ hrest => rw [ih hrest]
      | copied hplain => exact absurd ⟨rfl, beginsWithDigit_cons.mpr hdigit⟩ hplain
  | copied hplain _ ih =>
      cases h' with
      | argument hdigit => exact absurd ⟨rfl, beginsWithDigit_cons.mpr hdigit⟩ hplain
      | copied _ hrest => rw [ih hrest]

/-- The cut goes between a percent sign and the digit after it. -/
def Splits (first second : List Char) : Prop :=
  first.getLast? = some '%' ∧ BeginsWithDigit second

/-- A template is expanded piece by piece. -/
theorem Expands.append (ha : Expands shown first a) (hb : Expands shown second b)
    (hcut : ¬Splits first second) : Expands shown (first ++ second) (a ++ b) := by
  induction ha with
  | nil => simpa using hb
  | @argument d rest out hdigit _ ih =>
      rw [String.append_assoc]
      refine .argument hdigit (ih fun hsplits => hcut ⟨?_, hsplits.2⟩)
      -- the last character of what follows is the last of all
      obtain ⟨hlast, -⟩ := hsplits
      cases rest with
      | nil => simp at hlast
      | cons c rest => simpa using hlast
  | @copied c rest out hplain _ ih =>
      rw [String.append_assoc]
      cases rest with
      | nil =>
          refine .copied (fun hpair => hcut ⟨?_, hpair.2⟩) (ih fun hsplits => ?_)
          · simp [hpair.1]
          · simp [Splits] at hsplits
      | cons d rest =>
          refine .copied ?_ (ih fun hsplits => hcut ⟨?_, hsplits.2⟩)
          · rw [beginsWithDigit_cons] at hplain
            show ¬(c = '%' ∧ BeginsWithDigit (d :: (rest ++ second)))
            rwa [beginsWithDigit_cons]
          · simpa using hsplits.1

/-- What the parts of a template expand to, the whole expands to in a row. -/
theorem Expands.cut (h : Expands shown (first ++ second) out) (hcut : ¬Splits first second) :
    ∃ a b, Expands shown first a ∧ Expands shown second b ∧ out = a ++ b := by
  obtain ⟨a, ha⟩ := exists_expands shown first
  obtain ⟨b, hb⟩ := exists_expands shown second
  exact ⟨a, b, ha, hb, h.unique (ha.append hb hcut)⟩

end Template

end ManagedHeap
