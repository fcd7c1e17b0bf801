import KiNBOL.Fs.WriteOverlay

namespace KiNBOL

/-! What lies between the old end of a file and a write behind it. -/

variable {v : Volume} {n : FsNode} {ctx : FileCtx} {i : Fin 40} {off len : Nat} {cs : List Nat}

/-- After a write of some bytes behind the end of the file, the bytes between are read as 0. -/
def ClearsGap (v : Volume) (i : Fin 40) (n : FsNode) (off len : Nat) : Prop :=
  ∀ fuel cbuf src r v' n', off+len < fuel →
    fat32FileWrite fuel (some cbuf) i off len src v = some (r,v') → 0 < r →
    v'.files i = some n' → ∀ fuel' pos k buf, n.size ≤ pos → pos+k ≤ off → pos+k ≤ n'.size →
      pos+k < fuel' → fat32FileRead fuel' true n' pos k buf v' =
        some ((k,overlay buf 0 k (fun _ => 0#8)),v')

/-- No byte fits where the write begins, or the bytes of the file's clusters and of the free clusters
that come next are 0 between the old end and the write, as far as they are in the file then. -/
def GapReady (v : Volume) (n : FsNode) (ctx : FileCtx) (off len : Nat) : Prop :=
  ∃ cs, FileChain v ctx cs ∧ (len = 0 ∨ roomFor v cs ≤ off ∨
    ∀ k, n.size ≤ k → k < off → k < u32 (off+min len (roomFor v cs-off)) →
      listByte v (cs++freeOrder v) k = 0#8)

/-- The bytes in front of a write are those of the clusters as they were. -/
theorem WriteEnd.gap {v' : Volume} {n' : FsNode} {ctx' : FileCtx} {taken : List Nat} {r : Nat}
    {src : Sector} (h : WriteEnd v v' i n n' ctx ctx' cs taken off r src) (hl : DiskLayout v)
    {k : Nat} (hk : k < n'.size) (hlt : k < off) :
    fileByte v' ctx'.startCluster k = listByte v (cs++freeOrder v) k := by
  have hcov := h.writing.covers
  rw [h.wrote.places.clusterSize] at hcov
  rw [h.byte hl hk,overlay_out (Or.inl hlt),h.wrote.order,← List.append_assoc]
  exact (listByte_append v (by omega) (freeOrder v')).symm

/-- The gap in front of a write is clear exactly when it was before: `fat32_file_write` clears
nothing. -/
theorem file_write_gap_iff (hl : DiskLayout v) (hq : v.io = []) (hc : ChainsApart v)
    (hi : v.files i = some n) (hd : n.isDir = false) (hn : n.device = some ctx)
    (he : EntryHome v n ctx) : ClearsGap v i n off len ↔ GapReady v n ctx off len := by
  constructor
  · intro h
    rcases fat32FileWrite_end hl hq hc hi hd hn he (Nat.lt_succ_self (off+len)) (fun _ => 0#8)
      (fun _ => 0#8) with ⟨-,hfull,-,h0⟩ | ⟨r,v',n',ctx',cs,taken,hrun,hw,hr,-,hsize⟩
    · refine ⟨[],Or.inl ⟨h0,rfl⟩,Or.inr (Or.inl ?_)⟩
      rw [roomFor,(freeOrder_eq_nil hl).mpr hfull,List.append_nil,List.length_nil,Nat.zero_mul]
      exact Nat.zero_le off
    · refine ⟨cs,hw.chain,?_⟩
      by_cases hlen : len = 0
      · exact Or.inl hlen
      by_cases hroom : roomFor v cs ≤ off
      · exact Or.inr (Or.inl hroom)
      refine Or.inr (Or.inr (fun k hk hlt hin => ?_))
      rw [← hr] at hin
      have hk' : k < n'.size := by omega
      have hread := h _ _ _ r v' n' (Nat.lt_succ_self _) hrun (by omega) hw.writing.node (k+2) k 1
        (fun _ => 1#8) hk (by omega) (by omega) (by omega)
      rw [hw.writing.holds.read (k+2) k 1 _ (by omega) (by omega),Option.some.injEq,Prod.mk.injEq,
        Prod.mk.injEq] at hread
      have hbyte := congrFun hread.1.2 0
      rw [overlay,if_pos ⟨le_rfl,by omega⟩,overlay,if_pos ⟨le_rfl,by omega⟩] at hbyte
      rw [← hw.gap hl hk' hlt]
      exact hbyte
  · rintro ⟨ds,hds,hready⟩ fuel cbuf src r v' n' hf hrun hpos hnode fuel' pos k buf hold hoff hin hf'
    rcases fat32FileWrite_end hl hq hc hi hd hn he hf cbuf src with ⟨hrun',-⟩ |
      ⟨r₁,v₁,n₁,ctx',cs,taken,hrun',hw,hr,-,hsize⟩
    · obtain ⟨rfl,-⟩ := Prod.mk.inj (Option.some.inj (hrun.symm.trans hrun'))
      exact absurd hpos (Nat.lt_irrefl 0)
    · obtain ⟨rfl,rfl⟩ := Prod.mk.inj (Option.some.inj (hrun.symm.trans hrun'))
      obtain rfl := Option.some.inj (hnode.symm.trans hw.writing.node)
      obtain rfl := hw.chain.unique hds hl
      have hzero := (hready.resolve_left (by omega)).resolve_left (by omega)
      rw [← hr] at hzero
      rw [hw.writing.holds.read fuel' pos k buf hin hf',overlay_congr (fun j hj => ?_)]
      have hj' : pos+j < n'.size := by omega
      rw [hw.gap hl hj' (by omega)]
      exact hzero (pos+j) (by omega) (by omega) (by omega)

/-- The image again, with bytes behind the end of the file that were left there. -/
def leftoverDisk : Disk := fun lba => if lba = 3 then fun _ => 0x55#8 else smallFileDisk lba

def leftoverVolume : Volume := bootVolume (fun _ => true) 1 0 leftoverDisk []

/-- They become bytes of the file. -/
theorem leftover_read : ∃ v, fat32Init 3 (fun _ => true) leftoverVolume = some v ∧ DiskLayout v ∧
    v.io = [] ∧ ChainsApart v ∧ v.files 0 = some smallFileNode ∧
    EntryHome v smallFileNode ⟨3,2,0⟩ ∧ ¬ClearsGap v 0 smallFileNode 300 1 := by
  have hm : (fat32Init 3 (fun _ => true) leftoverVolume).map (fun v => (decide (SmallFile v),
      (fat32FileWrite 302 (some (fun _ => 0#8)) 0 300 1 (fun _ => 7#8) v).map (fun x =>
        (x.1,x.2.files 0,(fat32FileRead 300 true { smallFileNode with size := 301 } 200 1
          (fun _ => 0#8) x.2).map (fun y => y.1.2 0))))) =
      some (true,some (1,some { smallFileNode with size := 301 },some 0x55#8)) := by
    decide +kernel
  obtain ⟨v,hv,he⟩ := Option.map_eq_some_iff.mp hm
  obtain ⟨hsmall,hwrite⟩ := Prod.mk.inj he
  have h : SmallFile v := of_decide_eq_true hsmall
  obtain ⟨⟨r,v'⟩,hrun,hres⟩ := Option.map_eq_some_iff.mp hwrite
  obtain ⟨rfl,hrest⟩ := Prod.mk.inj hres
  obtain ⟨hnode,hread⟩ := Prod.mk.inj hrest
  refine ⟨v,hv,h.layout,h.2.1,h.apart,h.2.2.2.1 0,h.home,fun hclear => ?_⟩
  rw [hclear 302 _ _ 1 v' _ (by decide) hrun (by decide) hnode 300 200 1 _ (by decide) (by decide)
    (by decide) (by decide),Option.map_some] at hread
  simp [overlay] at hread

/-- A write behind the end of the small file, where the clusters hold nothing yet. -/
theorem file_write_gap_iff_sample : ∃ v, fat32Init 3 (fun _ => true) smallFileVolume = some v ∧
    v.files 0 = some smallFileNode ∧ ClearsGap v 0 smallFileNode 600 50 := by
  have hm : (fat32Init 3 (fun _ => true) smallFileVolume).map (fun v : Volume => (decide (SmallFile v),
      (List.range 512).all (fun k => v.disk 3 k = 0#8 && v.disk 4 k = 0#8),freeOrder v)) =
      some (true,true,[4,5,6,7,8,9]) := by decide +kernel
  obtain ⟨v,hv,he⟩ := Option.map_eq_some_iff.mp hm
  simp only [Prod.mk.injEq,decide_eq_true_eq,List.all_eq_true,List.mem_range,Bool.and_eq_true] at he
  obtain ⟨h,hzero,hfree⟩ := he
  have hone : IsChain v 3 [3] := isChain_one (h.inRange (by decide) (by decide)) h.2.2.2.2.2.1
  refine ⟨v,hv,h.2.2.2.1 0,(file_write_gap_iff h.layout h.2.1 h.apart (h.2.2.2.1 0) rfl rfl
    h.home).mpr ⟨[3],Or.inr hone,Or.inr (Or.inr (fun k hk hlt _ => ?_))⟩⟩
  obtain ⟨⟨hspc,-,-,hdata,-⟩,-⟩ := id h
  have hsize : v.clusterSize = 512 := by rw [Volume.clusterSize,hspc]
  have hmod : k%512 < 512 := Nat.mod_lt k (by decide)
  have hbyte : ∀ c, 2 ≤ c → c < 10 → clusterByte v c (k%512) = v.disk c (k%512) := by
    intro c h2 h10
    rw [(clusterByte_eq h.layout (h.inRange h2 h10) (by omega)).2,hdata,hspc]
    congr 1 <;> omega
  rw [hfree,listByte,hsize]
  by_cases hin : k < 512
  · have hdiv : k/512 = 0 := by omega
    rw [hdiv]
    exact (hbyte 3 (by decide) (by decide)).trans (hzero _ hmod).1
  · have hdiv : k/512 = 1 := by omega
    rw [hdiv]
    exact (hbyte 4 (by decide) (by decide)).trans (hzero _ hmod).2

end KiNBOL
