import Mathlib.Logic.Relation
import Mla.Names.Path

/-!
# Names made of paths

A name is made of a path by keeping the normal components on a stack, which a parent component
pops. What is kept is what is left of the components when they are rewritten, in any order, until
only normal ones are left.
-/

namespace Mla

open Io

/-- On Unix the bytes of the component are kept as they are. -/
def normalComponentOsstrToBytes (osStr : Bytes) : Except EntryNameError Bytes := .ok osStr

def pushComponent (stack : List Bytes) : Component → Except EntryNameError (List Bytes)
  | .rootDir | .curDir => .ok stack
  | .parentDir => .ok stack.dropLast
  | .normal osStr => do
      let bytes ← normalComponentOsstrToBytes osStr
      .ok (stack ++ [bytes])

def EntryName.fromPath (path : PathBuf) : Except EntryNameError EntryName := do
  let components ← (PathBuf.components path).foldlM pushComponent []
  EntryName.fromArbitraryBytes ([slash].intercalate components)

/-! ## Rewriting components -/

/-- Root and dot are dropped, a parent component goes with the normal one before it, or alone
where there is none. -/
inductive Normalizes : List Component → List Component → Prop
  | rootDir (before after : List Component) :
      Normalizes (before ++ .rootDir :: after) (before ++ after)
  | curDir (before after : List Component) :
      Normalizes (before ++ .curDir :: after) (before ++ after)
  | parentDir (before after : List Component) (component : Bytes) :
      Normalizes (before ++ .normal component :: .parentDir :: after) (before ++ after)
  | leadingParentDir (after : List Component) : Normalizes (.parentDir :: after) after

open Relation

def keep (stack : List Bytes) : Component → List Bytes
  | .rootDir | .curDir => stack
  | .parentDir => stack.dropLast
  | .normal component => stack ++ [component]

section Keep

variable {components components' : List Component} {stack kept : List Bytes} {component : Bytes}

theorem foldlM_pushComponent (stack : List Bytes) (components : List Component) :
    components.foldlM pushComponent stack = .ok (components.foldl keep stack) := by
  induction components generalizing stack with
  | nil => rfl
  | cons c components ih =>
      have hpush : pushComponent stack c = .ok (keep stack c) := by
        cases c with
        | rootDir => rfl
        | curDir => rfl
        | parentDir => rfl
        | normal component => rfl
      rw [List.foldlM_cons, hpush, List.foldl_cons, ← ih]
      rfl

theorem foldl_keep_normal (stack kept : List Bytes) :
    (kept.map Component.normal).foldl keep stack = stack ++ kept := by
  induction kept generalizing stack with
  | nil => exact (List.append_nil stack).symm
  | cons component kept ih =>
      rw [List.map_cons, List.foldl_cons, ih, keep, List.append_assoc, List.singleton_append]

/-- A step of rewriting keeps what is kept. -/
theorem Normalizes.foldl_keep (h : Normalizes components components') :
    components.foldl keep [] = components'.foldl keep [] := by
  cases h with
  | rootDir before after => rw [List.foldl_append, List.foldl_cons, keep, List.foldl_append]
  | curDir before after => rw [List.foldl_append, List.foldl_cons, keep, List.foldl_append]
  | parentDir before after component =>
      rw [List.foldl_append, List.foldl_cons, List.foldl_cons, keep, keep, List.dropLast_concat,
        List.foldl_append]
  | leadingParentDir => rw [List.foldl_cons, keep, List.dropLast_nil]

/-- The stack rewrites the components from the left. -/
theorem normalizes_foldl_keep (stack : List Bytes) (components : List Component) :
    ReflTransGen Normalizes (stack.map .normal ++ components)
      ((components.foldl keep stack).map .normal) := by
  induction components generalizing stack with
  | nil =>
      rw [List.append_nil]
      exact .refl
  | cons c components ih =>
      rw [List.foldl_cons]
      cases c with
      | rootDir => exact .head (.rootDir _ components) (ih stack)
      | curDir => exact .head (.curDir _ components) (ih stack)
      | parentDir =>
          rcases List.eq_nil_or_concat stack with rfl | ⟨start, component, rfl⟩
          · exact .head (.leadingParentDir components) (ih [])
          · rw [keep, List.concat_eq_append, List.dropLast_concat, List.map_append,
              List.append_assoc]
            exact .head (.parentDir _ components component) (ih start)
      | normal component =>
          have h := ih (stack ++ [component])
          rwa [List.map_append, List.append_assoc] at h

/-- However the components are rewritten, the same ones are left. -/
theorem normalizes_iff :
    ReflTransGen Normalizes components (kept.map .normal) ↔ kept = components.foldl keep [] := by
  constructor
  · intro h
    have hsame : components.foldl keep [] = (kept.map Component.normal).foldl keep [] := by
      induction h using ReflTransGen.head_induction_on with
      | refl => rfl
      | head hstep _ ih => exact hstep.foldl_keep.trans ih
    rw [hsame, foldl_keep_normal, List.nil_append]
  · rintro rfl
    exact normalizes_foldl_keep [] components

theorem mem_foldl_keep (h : component ∈ components.foldl keep stack) :
    component ∈ stack ∨ .normal component ∈ components := by
  induction components generalizing stack with
  | nil => exact .inl h
  | cons c components ih =>
      rcases ih h with h | h
      · cases c with
        | rootDir => exact .inl h
        | curDir => exact .inl h
        | parentDir => exact .inl ((List.dropLast_sublist stack).subset h)
        | normal other =>
            rcases List.mem_append.mp h with h | h
            · exact .inl h
            · exact .inr (List.mem_singleton.mp h ▸ List.mem_cons_self)
      · exact .inr (List.mem_cons_of_mem _ h)

end Keep

/-! ## Components of a path -/

/-- The bytes of a part are bytes of the path, and none of them is a slash. -/
theorem mem_of_mem_splitOn {bytes part : Bytes} (h : part ∈ bytes.splitOn slash) :
    ∀ b ∈ part, b ≠ slash ∧ b ∈ bytes := by
  induction bytes generalizing part with
  | nil =>
      rw [List.splitOn_nil, List.mem_singleton] at h
      rw [h]
      exact fun b hb => absurd hb List.not_mem_nil
  | cons first bytes ih =>
      have htail : ∀ {part : Bytes}, part ∈ bytes.splitOn slash →
          ∀ b ∈ part, b ≠ slash ∧ b ∈ first :: bytes := fun hpart b hb =>
        ⟨(ih hpart b hb).1, List.mem_cons_of_mem _ (ih hpart b hb).2⟩
      rw [List.splitOn_cons_eq_if_modifyHead] at h
      split at h
      · rcases List.mem_cons.mp h with rfl | h
        · exact fun b hb => absurd hb List.not_mem_nil
        · exact htail h
      · rename_i hfirst
        cases hsplit : bytes.splitOn slash with
        | nil => exact absurd hsplit (List.splitOn_ne_nil _ _)
        | cons start parts =>
            rw [hsplit] at h htail
            rcases List.mem_cons.mp h with rfl | h
            · intro b hb
              rcases List.mem_cons.mp hb with rfl | hb
              · exact ⟨fun hslash => hfirst (by simp [hslash]), List.mem_cons_self⟩
              · exact htail List.mem_cons_self b hb
            · exact htail (List.mem_cons_of_mem _ h)

theorem PathBuf.mem_components {path : PathBuf} {component : Bytes}
    (h : .normal component ∈ components path) :
    component ∈ path.splitOn slash ∧ component ≠ [] ∧ component ≠ dot ∧ component ≠ dotDot := by
  have hbody : .normal component ∈ bodyComponents path := by
    unfold components at h
    split at h
    · exact (List.mem_cons.mp h).resolve_left nofun
    · split at h
      · exact (List.mem_cons.mp h).resolve_left nofun
      · exact h
  obtain ⟨part, hpart, hparse⟩ := List.mem_filterMap.mp hbody
  unfold parseSingleComponent at hparse
  split at hparse
  · cases hparse
  · rename_i hempty
    split at hparse
    · cases hparse
    · rename_i hdotDot
      obtain rfl := Component.normal.inj (Option.some.inj hparse)
      exact ⟨hpart, (not_or.mp hempty).1, (not_or.mp hempty).2, hdotDot⟩

/-- Joined at slashes, parts without any are the components of the path. -/
theorem PathBuf.components_intercalate {kept : List Bytes} (hne : kept ≠ [])
    (hslash : ∀ c ∈ kept, slash ∉ c)
    (hpart : ∀ c ∈ kept, c ≠ [] ∧ c ≠ dot ∧ c ≠ dotDot) :
    components ([slash].intercalate kept) = kept.map .normal := by
  have hsplit : ([slash].intercalate kept).splitOn slash = kept :=
    List.splitOn_intercalate slash hslash hne
  have hroot : ([slash].intercalate kept).head? ≠ some slash := by
    intro hroot
    obtain ⟨rest, hrest⟩ := List.head?_eq_some_iff.mp hroot
    have hempty : [] ∈ kept := by
      rw [← hsplit, hrest, ← List.nil_append (slash :: rest), List.splitOn_append_cons_self]
      exact List.mem_append_left _ (by simp)
    exact (hpart [] hempty).1 rfl
  have hdot : kept.head? ≠ some dot := fun h => (hpart dot (List.mem_of_head? h)).2.1 rfl
  rw [components, hsplit, if_neg hroot, if_neg hdot, bodyComponents, hsplit]
  have hparse : kept.filterMap parseSingleComponent = kept.filterMap (some ∘ Component.normal) := by
    refine List.filterMap_congr fun c hc => ?_
    obtain ⟨hempty, hdot, hdotDot⟩ := hpart c hc
    rw [parseSingleComponent, if_neg (not_or.mpr ⟨hempty, hdot⟩), if_neg hdotDot]
    rfl
  rw [hparse, List.filterMap_eq_map]

namespace EntryName

variable {path : PathBuf} {name : EntryName}

theorem fromPath_eq_ok : fromPath path = .ok name ↔
    name.name = [slash].intercalate ((PathBuf.components path).foldl keep []) := by
  unfold fromPath
  rw [foldlM_pushComponent]
  change fromArbitraryBytes ([slash].intercalate ((PathBuf.components path).foldl keep [])) = _ ↔ _
  constructor
  · intro h
    unfold fromArbitraryBytes at h
    split at h
    · cases h
    · split at h
      · rw [← Except.ok.inj h]
      · cases h
  · intro h
    rw [← h, fromArbitraryBytes_name]

/-- A name made of a path is what is left of the components of the path, joined at slashes. The
path of that name is refused where one of them has a zero byte in it, and only there; the name is
made of its own path again. -/
theorem fromPath_normalizes (h : fromPath path = .ok name) :
    ∃ kept : List Bytes,
      (∀ other : List Bytes, ReflTransGen Normalizes (PathBuf.components path)
        (other.map .normal) ↔ other = kept) ∧
      name.name = [slash].intercalate kept ∧
      (name.toPathbuf = .ok name.name ↔ ∀ c ∈ kept, 0 ∉ c) ∧
      ((∃ e, name.toPathbuf = .error e) ↔ ∃ c ∈ kept, 0 ∈ c) ∧
      (0 ∉ path → ∃ path', name.toPathbuf = .ok path') ∧
      (∀ path', name.toPathbuf = .ok path' → fromPath path' = .ok name) ∧
      fromPath name.name = .ok name := by
  have hname := fromPath_eq_ok.mp h
  have hmem : ∀ c ∈ (PathBuf.components path).foldl keep [],
      c ∈ path.splitOn slash ∧ c ≠ [] ∧ c ≠ dot ∧ c ≠ dotDot := fun c hc =>
    PathBuf.mem_components ((mem_foldl_keep hc).resolve_left List.not_mem_nil)
  refine ⟨_, fun other => normalizes_iff, hname, ?_⟩
  generalize (PathBuf.components path).foldl keep [] = kept at hname hmem
  have hne : kept ≠ [] := by
    rintro rfl
    exact name.nonempty hname
  have hslash : ∀ c ∈ kept, slash ∉ c := fun c hc hc' =>
    (mem_of_mem_splitOn (hmem c hc).1 slash hc').1 rfl
  have hsplit : name.name.splitOn slash = kept := by
    rw [hname]
    exact List.splitOn_intercalate slash hslash hne
  have hagain : fromPath name.name = .ok name := by
    rw [fromPath_eq_ok, hname, PathBuf.components_intercalate hne hslash
      fun c hc => (hmem c hc).2, foldl_keep_normal, List.nil_append]
  have hok : name.toPathbuf = .ok name.name ↔ ∀ c ∈ kept, 0 ∉ c := by
    rw [toPathbuf_eq_ok, hsplit]
    exact ⟨fun h c hc => (h.2 c hc).2.1, fun h => ⟨rfl, fun c hc =>
      ⟨(hmem c hc).2.1, h c hc, (hmem c hc).2.2⟩⟩⟩
  refine ⟨hok, ?_, fun hzero => ⟨_, hok.mpr fun c hc hc' =>
    hzero (mem_of_mem_splitOn (hmem c hc).1 0 hc').2⟩, fun path' hpath' => ?_, hagain⟩
  · cases hpath : name.toPathbuf with
    | ok path' =>
        obtain ⟨rfl, -⟩ := toPathbuf_eq_ok.mp hpath
        have hnone := hok.mp hpath
        exact ⟨nofun, fun ⟨c, hc, hc'⟩ => absurd hc' (hnone c hc)⟩
    | error e =>
        refine ⟨fun _ => by_contra fun hnone => ?_, fun _ => ⟨e, rfl⟩⟩
        have hpath' := hok.mpr fun c hc hc' => hnone ⟨c, hc, hc'⟩
        rw [hpath] at hpath'
        cases hpath'
  · obtain ⟨rfl, -⟩ := toPathbuf_eq_ok.mp hpath'
    exact hagain

/-- A path with a zero byte, which is made into a name that has no path. -/
theorem fromPath_zero_refused : ∃ name : EntryName, fromPath [120, 0] = .ok name ∧
    ¬ ∃ path, name.toPathbuf = .ok path := by
  refine ⟨⟨[120, 0], by decide, by decide⟩, by decide, ?_⟩
  rw [show EntryName.toPathbuf ⟨[120, 0], by decide, by decide⟩ =
    .error .invalidPathComponentContent by decide]
  exact fun h => nomatch h.choose_spec

/-- `/../x/./y/..//z` is normalized to `x/z`. -/
theorem fromPath_normalizes_pair : ∃ (path : PathBuf) (name : EntryName),
    path = [47, 46, 46, 47, 120, 47, 46, 47, 121, 47, 46, 46, 47, 47, 122] ∧
      fromPath path = .ok name ∧ name.name = [120, 47, 122] ∧ fromPath name.name = .ok name := by
  have hname : fromPath [47, 46, 46, 47, 120, 47, 46, 47, 121, 47, 46, 46, 47, 47, 122] =
      .ok ⟨[120, 47, 122], by decide, by decide⟩ := rfl
  obtain ⟨kept, -, -, -, -, -, -, hagain⟩ := fromPath_normalizes hname
  exact ⟨_, _, rfl, hname, rfl, hagain⟩

end EntryName

end Mla
