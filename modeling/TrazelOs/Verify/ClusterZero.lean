import TrazelOs.Verify.Cursor
import TrazelOs.Verify.Resolution

/-! # Entries with cluster 0

In the format an entry with first cluster 0 has no clusters: it is an empty file, or the entry `..` of a
directory in the root directory. The driver takes 0 for the first cluster of a chain, and reads from
two clusters before the data section on. -/

namespace TrazelOs

open Theory

variable {dev : BlockDevice} {h : Fat12Header}

/-! ## Paths -/

theorem lookupEntry_name {entries : List DirectoryEntry} {c : List Byte} {entry : DirectoryEntry}
    (hlookup : lookupEntry entries c = some entry) : entry.shortName = c := by
  have hname := List.find?_some hlookup
  exact of_decide_eq_true hname

theorem DirectoryEntry.shortName_nonzero (entry : DirectoryEntry) : 0 ∉ entry.shortName := by
  intro hmem
  have hne := List.mem_takeWhile_imp hmem
  exact of_decide_eq_true hne rfl

/-- The components lead through directories to the entry. -/
inductive Fat12Header.LeadsTo (h : Fat12Header) (dev : BlockDevice) :
    List DirectoryEntry → List (List Byte) → DirectoryEntry → Prop
  | entry {entries : List DirectoryEntry} {c : List Byte} {entry : DirectoryEntry} :
    lookupEntry entries c = some entry → LeadsTo h dev entries [c] entry
  | enter {entries entries' : List DirectoryEntry} {c : List Byte} {cs : List (List Byte)}
    {dir entry : DirectoryEntry} : lookupEntry entries c = some dir → dir.isDirectory = true →
    h.ReadsAs dev dir entries' → LeadsTo h dev entries' cs entry → LeadsTo h dev entries (c :: cs) entry

theorem Fat12Header.LeadsTo.ne_nil {entries : List DirectoryEntry} {cs : List (List Byte)}
    {entry : DirectoryEntry} (hleads : h.LeadsTo dev entries cs entry) : entries ≠ [] ∧ cs ≠ [] := by
  cases hleads with
  | entry hlookup => exact ⟨lookupEntry_ne_nil hlookup, List.cons_ne_nil _ _⟩
  | enter hlookup _ _ _ => exact ⟨lookupEntry_ne_nil hlookup, List.cons_ne_nil _ _⟩

theorem Fat12Header.LeadsTo.walk_iff {entries : List DirectoryEntry} {cs : List (List Byte)}
    {entry : DirectoryEntry} {r : Option (Nat × List Byte)}
    (hleads : h.LeadsTo dev entries cs entry) : h.Walk dev entries cs r ↔
      ∃ ids, h.FileClusters dev entry ids ∧
        r = some (h.contentSize entry ids.length, h.content dev ids) := by
  induction hleads with
  | entry hlookup => rw [walk_single, hlookup]
  | @enter entries entries' c cs dir entry hlookup _ hreads hleads ih =>
    rw [walk_cons hleads.ne_nil.2, hlookup, ← ih]
    constructor
    · rintro ⟨entries'', hreads', hwalk⟩
      rwa [hreads.unique hreads']
    · intro hwalk
      exact ⟨entries', hreads, hwalk⟩

/-- `..`. -/
def parentName : List Byte := [0x2E, 0x2E]

/-- The root directory has a directory of the name `d`, whose entry `..` is `parent`, with cluster 0. -/
structure FirstLevel (dev : BlockDevice) (d : List Byte) (parent : DirectoryEntry) : Prop where
  plain : 0x2F ∉ d
  listed : ∃ dir entries, lookupEntry ((loadFat12Header dev).rootListing dev) d = some dir ∧
    dir.isDirectory = true ∧ (loadFat12Header dev).ReadsAs dev dir entries ∧
    lookupEntry entries parentName = some parent
  directory : parent.isDirectory = true
  first : parent.firstClusterId = 0

namespace Fat12Header

variable {entries entries' : List DirectoryEntry} {c : List Byte}

end Fat12Header

section Volume
variable (V : ValidVolume dev)
include V

omit V in
/-- From the root directory, `d/..` leads to what its entry `..` is read as. -/
theorem FirstLevel.walk_iff {d : List Byte} {parent : DirectoryEntry} (hfirst : FirstLevel dev d parent)
    {cs : List (List Byte)} (hcs : cs ≠ []) {r : Option (Nat × List Byte)} :
    (loadFat12Header dev).Walk dev ((loadFat12Header dev).rootListing dev) (d :: parentName :: cs) r ↔
      ∃ entries, (loadFat12Header dev).ReadsAs dev parent entries ∧
        (loadFat12Header dev).Walk dev entries cs r := by
  obtain ⟨dir, entries, hdir, -, hreads, hparent⟩ := hfirst.listed
  rw [Fat12Header.walk_cons (List.cons_ne_nil _ _), hdir]
  constructor
  · rintro ⟨entries', hreads', hwalk⟩
    rw [← hreads.unique hreads', Fat12Header.walk_cons hcs, hparent] at hwalk
    exact hwalk
  · intro hwalk
    refine ⟨entries, hreads, ?_⟩
    rw [Fat12Header.walk_cons hcs, hparent]
    exact hwalk

omit V in
theorem FirstLevel.nonzero {d : List Byte} {parent : DirectoryEntry} (hfirst : FirstLevel dev d parent) :
    0 ∉ d := by
  obtain ⟨dir, -, hdir, -⟩ := hfirst.listed
  exact lookupEntry_name hdir ▸ dir.shortName_nonzero

end Volume

end TrazelOs
