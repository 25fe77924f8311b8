import SamaraOS.Fs.Ext2Dir

/-!
# The data of a directory there and back (ext2.c)

`sync_vol` writes `.` and `..` first and then the children.  `load_dir` takes the name as a C
string and leaves out these two and the records without an inode.
-/

namespace SamaraOS.Ext2

open List

def dot : List UInt8 := [46]

def dotdot : List UInt8 := [46, 46]

def nameMax : Nat := 128

/-- The name as a C string in a buffer of `FS_NAME_MAX` bytes. -/
def cname (name : List UInt8) : List UInt8 := (name.take (nameMax - 1)).takeWhile (· ≠ 0)

/-- What the loop of `load_dir` takes from a record. -/
def entry (r : Rec) : Option Rec :=
  let name := cname r.name
  if r.ino = 0 ∨ name = dot ∨ name = dotdot then none else some ⟨r.ino, name⟩

def dirEntries (data : List UInt8) : List Rec := (records data).filterMap entry

structure Rec.Legal (r : Rec) : Prop where
  ino_ne : r.ino ≠ 0
  ino_lt : r.ino < 2 ^ 32
  length : r.name.length < nameMax
  nul : 0 ∉ r.name
  dots : r.name ≠ dot ∧ r.name ≠ dotdot

theorem Rec.Legal.entry {r : Rec} (h : r.Legal) : entry r = some r := by
  have hname : cname r.name = r.name := by
    rw [cname, take_of_length_le (Nat.le_sub_one_of_lt h.length), takeWhile_eq_self_iff]
    intro b hb
    simpa using fun h0 : b = 0 => h.nul (h0 ▸ hb)
  rw [Ext2.entry]
  simp only [hname]
  exact if_neg fun hc => hc.elim h.ino_ne fun hc => hc.elim h.dots.1 h.dots.2

def dirList (self parent : Nat) (t : UInt8) (xs : List (Rec × UInt8)) : List (Rec × UInt8) :=
  (⟨self, dot⟩, t) :: (⟨parent, dotdot⟩, t) :: xs

theorem dirEntries_dirBytes {bs self parent : Nat} (t : UInt8) {xs : List (Rec × UInt8)}
    (hbs : bs ∈ [1024, 2048, 4096]) (hself : self < 2 ^ 32) (hparent : parent < 2 ^ 32)
    (h : ∀ x ∈ xs, x.1.Legal) :
    (∃ rs, dirBytes bs (dirList self parent t xs) = laidOut rs ∧ Tiled bs rs ∧
      rs.map (fun r => (r.1, r.2.1)) = dirList self parent t xs ∧
      4 ∣ bs ∧ bs ∣ (dirBytes bs (dirList self parent t xs)).length) ∧
    dirEntries (dirBytes bs (dirList self parent t xs)) = xs.map (·.1) := by
  have hrange : 264 ≤ bs ∧ bs ≤ 4096 ∧ 4 ∣ bs := by
    simp only [mem_cons, not_mem_nil, or_false] at hbs
    omega
  have hfits : ∀ x ∈ dirList self parent t xs, x.1.Fits := by
    rintro x (_ | ⟨_, _ | ⟨_, hx⟩⟩)
    · exact ⟨hself, (by decide : 1 < 2 ^ 8)⟩
    · exact ⟨hparent, (by decide : 2 < 2 ^ 8)⟩
    · exact ⟨(h x hx).ino_lt, Nat.lt_trans (h x hx).length (by decide)⟩
  have hne : dirList self parent t xs ≠ [] := cons_ne_nil _ _
  obtain ⟨rs, hrs, htiled, hdvd, hmap⟩ := dirBytes_tiled hrange.1 hrange.2.1 hne hfits
  refine ⟨⟨rs, hrs, htiled, hmap, hrange.2.2, hdvd⟩, ?_⟩
  have hkeep : (xs.map (·.1)).filterMap entry = xs.map (·.1) := by
    rw [filterMap_map, filterMap_eq_map_iff_forall_eq_some]
    exact fun x hx => (h x hx).entry
  have hdots : entry ⟨self, dot⟩ = none ∧ entry ⟨parent, dotdot⟩ = none :=
    ⟨if_pos (.inr (.inl rfl)), if_pos (.inr (.inr rfl))⟩
  rw [dirEntries, records_dirBytes hrange.1 hrange.2.1 hne hfits, dirList, map_cons, map_cons,
    filterMap_cons_none hdots.1, filterMap_cons_none hdots.2, hkeep]

theorem dirEntries_dirBytes_two :
    dirEntries (dirBytes 1024 (dirList 2 2 2 [(⟨11, [97]⟩, 1), (⟨12, [98, 99]⟩, 2)])) =
      [⟨11, [97]⟩, ⟨12, [98, 99]⟩] := by
  refine (dirEntries_dirBytes 2 (by decide) (by decide) (by decide) ?_).2
  rintro x (_ | ⟨_, _ | ⟨_, ⟨⟩⟩⟩) <;>
    exact ⟨by decide, by decide, by decide, by decide, by decide⟩

end SamaraOS.Ext2
