import Mla.Writer.Size

/-!
# What the first bytes of an archive tell

The blocks of an archive, taken in their order, tell of its entries: each one starts an entry, adds
to the content of one, or ends one. The first blocks tell of some of the entries, with the first
part of their contents.
-/

namespace Mla

open Io

/-! ## Telling -/

namespace Written

/-- What is known of the entries behind a block. -/
def tell (drafts : List Draft) : Written → List Draft
  | entryStart _ name => drafts ++ [⟨name, [], false⟩]
  | entryContent id _ data =>
      drafts.modify id fun draft => { draft with content := draft.content ++ data }
  | endOfEntry id _ => drafts.modify id fun draft => { draft with ended := true }

/-- The block can stand behind those that have told of `drafts`. -/
inductive Follows [Sha256] (drafts : List Draft) : Written → Prop
  | entryStart {name : EntryName} (hname : name ∉ drafts.map Draft.name) :
      Follows drafts (.entryStart drafts.length name)
  | entryContent {id : ArchiveEntryId} {draft : Draft} (size : ℕ) (data : Bytes)
      (hdraft : drafts[id]? = some draft) (hended : draft.ended = false) :
      Follows drafts (.entryContent id size data)
  | endOfEntry {id : ArchiveEntryId} {draft : Draft} (hdraft : drafts[id]? = some draft)
      (hended : draft.ended = false) :
      Follows drafts (.endOfEntry id (Sha256.digest draft.content))

end Written

/-- From what is known of the entries, the blocks tell what is known behind them. -/
inductive Telling [Sha256] : List Draft → List Written → List Draft → Prop
  | nil {drafts : List Draft} : Telling drafts [] drafts
  | cons {drafts drafts' : List Draft} {block : Written} {blocks : List Written}
      (hfollows : block.Follows drafts) (hrest : Telling (block.tell drafts) blocks drafts') :
      Telling drafts (block :: blocks) drafts'

section Telling

variable [Sha256] {drafts drafts' drafts'' : List Draft} {blocks blocks' : List Written}

theorem Telling.trans (h : Telling drafts blocks drafts') (h' : Telling drafts' blocks' drafts'') :
    Telling drafts (blocks ++ blocks') drafts'' := by
  induction h with
  | nil => exact h'
  | cons hfollows _ ih => exact .cons hfollows (ih h')

theorem Telling.single {block : Written} (h : block.Follows drafts) :
    Telling drafts [block] (block.tell drafts) := .cons h .nil

theorem Telling.eq_foldl (h : Telling drafts blocks drafts') :
    drafts' = blocks.foldl Written.tell drafts := by
  induction h with
  | nil => rfl
  | cons _ _ ih => exact ih

end Telling

/-- An entry that is changed in its place. -/
theorem modify_of_getElem? {α : Type} {l : List α} {i : ℕ} {a : α} (h : l[i]? = some a) (f : α → α) :
    l.modify i f = l.set i (f a) := by
  rw [List.modify_eq_set_getElem?, h]
  rfl

/-! ## Journals -/

namespace Journal

variable {j : Journal} {id : ArchiveEntryId} {draft : Draft}

/-- The blocks tell of the entries. -/
def IsTold [Sha256] (j : Journal) : Prop := Telling [] j.blocks j.drafts

theorem kept_isTold [Sha256] : Kept IsTold where
  started h hname := h.trans (.single (.entryStart hname))
  given {j id draft size} data h hopen _ := by
    obtain ⟨hdraft, hended⟩ := opened_eq_some.mp hopen
    have hblock := Telling.single (.entryContent size data hdraft hended)
    rw [Written.tell, modify_of_getElem? hdraft] at hblock
    exact h.trans hblock
  closed {j id draft} h hopen := by
    obtain ⟨hdraft, hended⟩ := opened_eq_some.mp hopen
    have hblock := Telling.single (.endOfEntry hdraft hended)
    rw [Written.tell, modify_of_getElem? hdraft] at hblock
    exact h.trans hblock

theorem isTold_run {σ : Type} [Patience] [Sha256] [Read Error σ] (calls : List (WriterCall σ)) :
    (run calls).2.IsTold :=
  kept_isTold.run .nil calls

end Journal

/-! ## Parts -/

/-- What is known of an entry is a part of what is known of it later. -/
structure Draft.PartOf (draft draft' : Draft) : Prop where
  name : draft.name = draft'.name
  content : draft.content <+: draft'.content
  ended : draft.ended = true → draft' = draft

/-- The entries are the first ones, with parts of them. -/
def PartsOf (drafts drafts' : List Draft) : Prop :=
  ∀ (o : ℕ) (draft : Draft), drafts[o]? = some draft → ∃ draft', drafts'[o]? = some draft' ∧
    draft.PartOf draft'

theorem Draft.PartOf.refl (draft : Draft) : draft.PartOf draft := ⟨rfl, List.prefix_rfl, fun _ => rfl⟩

theorem Draft.PartOf.trans {a b c : Draft} (h : a.PartOf b) (h' : b.PartOf c) : a.PartOf c where
  name := h.name.trans h'.name
  content := h.content.trans h'.content
  ended hended := by
    obtain rfl := h.ended hended
    exact h'.ended hended

theorem PartsOf.refl (drafts : List Draft) : PartsOf drafts drafts :=
  fun _ draft hdraft => ⟨draft, hdraft, .refl draft⟩

theorem PartsOf.trans {a b c : List Draft} (h : PartsOf a b) (h' : PartsOf b c) : PartsOf a c := by
  intro o draft hdraft
  obtain ⟨draft', hdraft', hpart⟩ := h o draft hdraft
  obtain ⟨draft'', hdraft'', hpart'⟩ := h' o draft' hdraft'
  exact ⟨draft'', hdraft'', hpart.trans hpart'⟩

/-- One entry is told more of. -/
theorem partsOf_modify {drafts : List Draft} {i : ℕ} {draft : Draft} (h : drafts[i]? = some draft)
    (f g : Draft → Draft) (hpart : (f draft).PartOf (g draft)) :
    PartsOf (drafts.modify i f) (drafts.modify i g) := by
  intro o found hfound
  rw [List.getElem?_modify] at hfound ⊢
  obtain ⟨old, hold, rfl⟩ := Option.map_eq_some_iff.mp hfound
  rw [hold]
  refine ⟨_, rfl, ?_⟩
  dsimp only
  rcases eq_or_ne i o with rfl | hne
  · rw [h] at hold
    obtain rfl := Option.some.inj hold
    rwa [if_pos rfl, if_pos rfl]
  · rw [if_neg hne, if_neg hne]
    exact .refl old

theorem partsOf_modify_right {drafts : List Draft} {i : ℕ} {draft : Draft}
    (h : drafts[i]? = some draft) (g : Draft → Draft) (hpart : draft.PartOf (g draft)) :
    PartsOf drafts (drafts.modify i g) := by
  have hmodify := partsOf_modify h id g hpart
  rwa [List.modify_id] at hmodify

section Parts

variable [Sha256] {drafts drafts' : List Draft} {blocks : List Written}

theorem Written.Follows.partsOf {block : Written} (h : block.Follows drafts) :
    PartsOf drafts (block.tell drafts) := by
  cases h with
  | entryStart hname =>
      intro o draft hdraft
      refine ⟨draft, ?_, .refl draft⟩
      rw [tell, List.getElem?_append_left (List.getElem?_eq_some_iff.mp hdraft).1, hdraft]
  | entryContent size data hdraft hended =>
      exact partsOf_modify_right hdraft _
        ⟨rfl, List.prefix_append _ _, fun h => absurd h (Bool.eq_false_iff.mp hended)⟩
  | endOfEntry hdraft hended =>
      exact partsOf_modify_right hdraft _
        ⟨rfl, List.prefix_rfl, fun h => absurd h (Bool.eq_false_iff.mp hended)⟩

theorem Telling.partsOf (h : Telling drafts blocks drafts') : PartsOf drafts drafts' := by
  induction h with
  | nil => exact .refl _
  | cons hfollows _ ih => exact hfollows.partsOf.trans ih

end Parts

/-! ## The first bytes -/

namespace Written

/-- Of the data of a content, the first bytes. -/
def takeData (n : ℕ) : Written → Written
  | entryContent id size data => entryContent id size (data.take n)
  | block => block

/-- The blocks in the first `k` bytes. Of the content that is cut the data that is there counts. -/
def cut : ℕ → List Written → List Written
  | _, [] => []
  | k, block :: blocks =>
      if block.encode.length ≤ k then block :: cut (k - block.encode.length) blocks
      else if block.header.length ≤ k then [block.takeData (k - block.header.length)]
      else []

/-- Bytes that reach behind the blocks hold all of them. -/
theorem cut_of_le : ∀ {blocks : List Written} {k : ℕ},
    (blocks.flatMap Written.encode).length ≤ k → cut k blocks = blocks
  | [], k, _ => by rw [cut]
  | block :: blocks, k, h => by
      rw [List.flatMap_cons, List.length_append] at h
      rw [cut, if_pos (by omega), cut_of_le (by omega)]

end Written

section Cut

variable [Sha256] {drafts drafts' : List Draft} {blocks : List Written}

theorem Written.Follows.takeData {block : Written} (h : block.Follows drafts) (n : ℕ) :
    (block.takeData n).Follows drafts ∧ PartsOf ((block.takeData n).tell drafts) (block.tell drafts) := by
  cases h with
  | entryStart hname => exact ⟨.entryStart hname, .refl _⟩
  | entryContent size data hdraft hended =>
      refine ⟨.entryContent size _ hdraft hended, partsOf_modify hdraft _ _
        ⟨rfl, ?_, fun h => absurd h (Bool.eq_false_iff.mp hended)⟩⟩
      exact (List.prefix_append_right_inj _).mpr (List.take_prefix _ _)
  | endOfEntry hdraft hended => exact ⟨.endOfEntry hdraft hended, .refl _⟩

/-- What the first bytes tell is a part of what all of them do. -/
theorem Telling.cut (h : Telling drafts blocks drafts') : ∀ k : ℕ,
    ∃ known, Telling drafts (Written.cut k blocks) known ∧ PartsOf known drafts' := by
  induction h with
  | nil => exact fun k => ⟨_, by rw [Written.cut]; exact .nil, .refl _⟩
  | @cons drafts drafts' block blocks hfollows hrest ih =>
      intro k
      rw [Written.cut]
      split
      · obtain ⟨known, htelling, hparts⟩ := ih (k - block.encode.length)
        exact ⟨known, .cons hfollows htelling, hparts⟩
      · split
        · obtain ⟨hcut, hparts⟩ := hfollows.takeData (k - block.header.length)
          exact ⟨_, .single hcut, hparts.trans hrest.partsOf⟩
        · exact ⟨drafts, .nil, hfollows.partsOf.trans hrest.partsOf⟩

end Cut

end Mla
