import LibPM.Fixptr.Map
import LibPM.Fixptr.Crash

/-!
# Restarts

A new process maps the file at `start` and has nothing but its pages: `Reopens P Q start t u` relates the memory `t` that
the crash left to the memory `u` that `pptr_map` is called on. What `pptr_map` then yields is `Restores`; for a list in
the file it is known exactly (`Filed.restores_iff`).
-/

namespace LibPM

open Recorded Recorded.Prog LittleEndian

/-- The same pages, `start` being where the file begins. -/
def PageSupply.shifted (Q : PageSupply) (start : ℕ) : PageSupply := { Q with laddr := fun a => a - start }

namespace PptrMem

variable {P Q : PageSupply} {t u : PptrMem} {g : List InodeView} {J : InodeView} {k start : ℕ} {ts ts' : List Pptr}
  {type : CpointType}

/-- `u` is what a new process has of `t`: the bytes of the pages and the offset of the first inode. -/
structure Reopens (P Q : PageSupply) (start : ℕ) (t u : PptrMem) : Prop where
  pos : 0 < start
  lt : ∀ a, P.mapped a = true → start + P.laddr a < 2 ^ 64
  mapped : ∀ a, P.mapped a = true → Q.mapped (start + P.laddr a) = true
  bytes : ∀ a, P.mapped a = true → u.bytes (start + P.laddr a) = t.bytes a
  first : u.head.firstLaddr = t.head.firstLaddr
  used : u.used = []

/-- After a crash in `t`, `pptr_map` returns in every new process, and the list it leaves there is `ts`. -/
def Restores (P : PageSupply) (type : CpointType) (t : PptrMem) (ts : List Pptr) : Prop :=
  ∀ Q start u, Reopens P Q start t u → ∃ N, ∀ n ≥ N, ∃ v, Returns (pptrMap Q start n type) u () v ∧
    v.walkFrom n v.head.firstMaddr = some ts

/-- The list with its pages where a new process has them. -/
def DnodeView.moved (P : PageSupply) (start : ℕ) (d : DnodeView) : DnodeView := ⟨start + P.laddr d.page, d.entries⟩

def InodeView.moved (P : PageSupply) (start : ℕ) (J : InodeView) : InodeView :=
  ⟨start + P.laddr J.page, J.dnodes.map (DnodeView.moved P start)⟩

theorem dnodesOf_moved (g : List InodeView) :
    dnodesOf (g.map (InodeView.moved P start)) = (dnodesOf g).map (DnodeView.moved P start) := by
  unfold dnodesOf
  rw [List.flatMap_map, List.map_flatMap]
  rfl

theorem pagesOf_moved (g : List InodeView) :
    pagesOf (g.map (InodeView.moved P start)) = (pagesOf g).map fun a => start + P.laddr a := by
  unfold pagesOf
  rw [dnodesOf_moved, List.map_append, List.map_map, List.map_map, List.map_map, List.map_map]
  rfl

theorem shifted_laddr (a : ℕ) : (Q.shifted start).laddr (start + a) = a := Nat.add_sub_cancel_left start a

theorem headLaddr_moved (g : List InodeView) :
    headLaddr (Q.shifted start) (g.map (InodeView.moved P start)) = headLaddr P g := by
  cases g with
  | nil => rfl
  | cons J g => exact shifted_laddr _

theorem currentLaddr_moved (J : InodeView) (k : ℕ) :
    (InodeView.moved P start J).currentLaddr (Q.shifted start) k = J.currentLaddr P k := by
  unfold InodeView.currentLaddr InodeView.moved
  dsimp only
  rw [List.getElem?_map, Option.map_map]
  rcases J.dnodes[k]? with _ | d
  · rfl
  · exact shifted_laddr _

section Moved

variable (hr : Reopens P Q start t u)

include hr

theorem Reopens.pin (hm : P.mapped J.page = true) (f : PinField) :
    u.pin (InodeView.moved P start J).page f = t.pin J.page f := by
  unfold PptrMem.pin InodeView.moved
  dsimp only
  rw [hr.bytes _ hm]

theorem Reopens.showsDnode {d : DnodeView} (hm : P.mapped d.page = true) (h : t.ShowsDnode d) :
    u.ShowsDnode (DnodeView.moved P start d) := by
  have hb : u.bytes (DnodeView.moved P start d).page = t.bytes d.page := hr.bytes _ hm
  refine ⟨?_, fun i hi => ?_, h.length_le⟩
  · unfold pdn
    rw [hb]
    exact h.index
  · rw [hb]
    exact h.entry i hi

theorem Reopens.fileChain (hm : ∀ J ∈ g, P.mapped J.page = true) (h : t.FileChain P g) :
    u.FileChain (Q.shifted start) (g.map (InodeView.moved P start)) := by
  induction g with
  | nil => trivial
  | cons J g ih =>
    refine ⟨?_, ih (fun K hK => hm K (by simp [hK])) h.2⟩
    rw [hr.pin (hm J (by simp)), headLaddr_moved]
    exact h.1

/-- The list is in the file of the new process. -/
theorem Reopens.filed (hP : P.InFile) (h : t.Filed P g) :
    u.Filed (Q.shifted start) (g.map (InodeView.moved P start)) := by
  have hm : ∀ J ∈ g, P.mapped J.page = true := fun J hJ => h.mapped _ (mem_pagesOf_inode hJ)
  have hmd : ∀ d ∈ dnodesOf g, P.mapped d.page = true := fun d hd => h.mapped _ (mem_pagesOf_dnode hd)
  refine ⟨by simp [h.ne_nil], ?_, hr.fileChain hm h.chain, fun J hJ => ?_, fun I hI => ?_, fun J hJ k hk => ?_,
    fun J hJ k hk hlen => ?_, fun J hJ => ?_, fun d hd => ?_, fun d hd => ?_, ?_, fun a ha => ?_⟩
  · rw [headLaddr_moved, hr.first]
    exact h.first
  · rw [← List.map_tail] at hJ
    obtain ⟨K, hK, rfl⟩ := List.mem_map.mp hJ
    exact (shifted_laddr _).trans_ne (h.next_ne K hK)
  · rw [List.getLast?_map, Option.map_eq_some_iff] at hI
    obtain ⟨I, hI, rfl⟩ := hI
    rw [hr.pin (hm I (List.mem_of_getLast? hI))]
    exact h.last I hI
  · obtain ⟨K, hK, rfl⟩ := List.mem_map.mp hJ
    rw [hr.pin (hm K hK), currentLaddr_moved]
    exact h.slot K hK k hk
  · obtain ⟨K, hK, rfl⟩ := List.mem_map.mp hJ
    rw [hr.pin (hm K hK)]
    refine h.empty K hK k hk ?_
    simpa [InodeView.moved] using hlen
  · obtain ⟨K, hK, rfl⟩ := List.mem_map.mp hJ
    simpa [InodeView.moved] using h.length_le K hK
  · rw [dnodesOf_moved] at hd
    obtain ⟨e, he, rfl⟩ := List.mem_map.mp hd
    exact (shifted_laddr _).trans_ne (h.laddr_ne e he)
  · rw [dnodesOf_moved] at hd
    obtain ⟨e, he, rfl⟩ := List.mem_map.mp hd
    exact hr.showsDnode (hmd e he) (h.dnode e he)
  · rw [pagesOf_moved]
    refine h.nodup.map_on fun a ha b hb he => ?_
    exact hP.laddr_inj a b (h.mapped a ha) (h.mapped b hb) (Nat.add_left_cancel he)
  · rw [pagesOf_moved] at ha
    obtain ⟨b, hb, rfl⟩ := List.mem_map.mp ha
    exact hr.mapped b (h.mapped b hb)

theorem Reopens.placed (h : t.Filed P g) (hn : Named P t g) :
    Placed (Q.shifted start) start u (g.map (InodeView.moved P start)) := by
  refine ⟨fun a ha => ?_, fun a ha => ?_, fun J hJ k hk hne => ?_, hr.pos⟩
  · rw [pagesOf_moved] at ha
    obtain ⟨a, -, rfl⟩ := List.mem_map.mp ha
    rw [shifted_laddr]
  · rw [pagesOf_moved] at ha
    obtain ⟨b, hb, rfl⟩ := List.mem_map.mp ha
    exact hr.lt b (h.mapped b hb)
  · obtain ⟨K, hK, rfl⟩ := List.mem_map.mp hJ
    rw [hr.pin (h.mapped _ (mem_pagesOf_inode hK))] at hne ⊢
    obtain ⟨a, hm, hl⟩ := hn K hK k hk hne
    rw [← hl]
    exact hr.lt a hm

end Moved

end PptrMem

end LibPM
