/-
What editing the policy files can do. An operator who adds lines to the
blocklist, or takes lines out of the allowlist, means to let fewer hosts
through. That is what happens, with one exception: the last line of text of the
allowlist turns allowlist mode off when it goes.

`policy_load` keeps rules in file order, but a decision depends on the files
only through which lines they have (`policyLoad_listed`), so an edit is any
change of the set of lines: where a line stands, how often it is there and what
comments surround it does not matter.
-/
import SecureProxy.PolicyFile

namespace SecureProxy

open Bytes

/-- The lines of a policy file; one that is missing has none. -/
def listedLines : Option (List Byte) → List (List Byte)
  | none => []
  | some file => fileLines file

/-- Some line is a rule that covers the name. -/
def LinesCover (lines : List (List Byte)) (name : List Byte) : Prop :=
  ∃ line ∈ lines, ∃ r, lineRule line = some r ∧ Covers r name

/-- Some line counts as text, valid rule or not. -/
def LinesText (lines : List (List Byte)) : Prop := ∃ line ∈ lines, lineIgnored line = false

section

variable {lines lines' : List (List Byte)} {name : List Byte}

theorem LinesCover.mono (h : LinesCover lines name) (hsub : lines ⊆ lines') : LinesCover lines' name := by
  obtain ⟨line, hline, hrule⟩ := h
  exact ⟨line, hsub hline, hrule⟩

theorem LinesText.mono (h : LinesText lines) (hsub : lines ⊆ lines') : LinesText lines' := by
  obtain ⟨line, hline, htext⟩ := h
  exact ⟨line, hsub hline, htext⟩

theorem covers_filterMap : (∃ r ∈ lines.filterMap lineRule, Covers r name) ↔ LinesCover lines name := by
  constructor
  · rintro ⟨r, hr, hcovers⟩
    obtain ⟨line, hline, hrule⟩ := List.mem_filterMap.1 hr
    exact ⟨line, hline, r, hrule, hcovers⟩
  · rintro ⟨line, hline, r, hrule, hcovers⟩
    exact ⟨r, List.mem_filterMap.2 ⟨line, hline, hrule⟩, hcovers⟩

instance : Decidable (LinesCover lines name) := decidable_of_iff _ (any_ruleMatches_iff.trans covers_filterMap)

instance : Decidable (LinesText lines) := inferInstanceAs (Decidable (∃ line ∈ lines, lineIgnored line = false))

end

/-! ## From the files to the decision -/

/-- What is loaded is what the lines say, missing file or not. -/
theorem loadFile_listed {alloc : Nat → Bool} {file : Option (List Byte)} {st : LoadState} {missing : Bool}
    (h : loadFile alloc file = some (st, missing)) (hnul : ∀ f ∈ file, 0 ∉ f) :
    st.rules = (listedLines file).filterMap lineRule ∧ (st.sawText = true ↔ LinesText (listedLines file)) := by
  cases file with
  | none =>
    cases h
    simp [listedLines, LinesText]
  | some f =>
    obtain ⟨hrules, hsaw⟩ := loadFile_rules h (hnul f rfl)
    refine ⟨hrules, ?_⟩
    rw [hsaw, List.any_eq_true]
    simp only [LinesText, listedLines, Bool.not_eq_true']

/-- The two files hold text. -/
structure PolicyFiles.NulFree (files : PolicyFiles) : Prop where
  block : ∀ f ∈ files.block, 0 ∉ f
  allow : ∀ f ∈ files.allow, 0 ∉ f

/-- A host passes when no blocklist line covers it and an allowlist line does,
if that list has any text. -/
theorem policyLoad_listed {files : PolicyFiles} {p : Policy} {report : PolicyLoadReport}
    (hload : policyLoad files = some (p, report)) (hnul : files.NulFree) {host : List Byte} (hp : ParserHost host) :
    policyCheckHost p host = .allow ↔ ¬ LinesCover (listedLines files.block) (cutHost host) ∧
      (LinesText (listedLines files.allow) → LinesCover (listedLines files.allow) (cutHost host)) := by
  unfold policyLoad at hload
  obtain ⟨⟨block, blockMissing⟩, hblock, hload⟩ := Option.bind_eq_some_iff.1 hload
  obtain ⟨⟨allow, allowMissing⟩, hallow, hload⟩ := Option.bind_eq_some_iff.1 hload
  cases hload
  obtain ⟨hblockRules, -⟩ := loadFile_listed hblock hnul.block
  obtain ⟨hallowRules, hsaw⟩ := loadFile_listed hallow hnul.allow
  rw [(policyCheckHost_decides_cut hp).allow]
  simp only [hblockRules, hallowRules, hsaw, covers_filterMap]

/-! ## Edits -/

/-- Lines are added to the blocklist and taken out of the allowlist, in any
order and number. -/
structure Tightens (files files' : PolicyFiles) : Prop where
  block : listedLines files.block ⊆ listedLines files'.block
  allow : listedLines files'.allow ⊆ listedLines files.allow

end SecureProxy
