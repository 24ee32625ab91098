import Mathlib.Data.Fin.VecNotation
import NaiveGfs.Fat32.Directory

/-!
# The config file

`dfs_init_config` of `fat32-dfs.c` looks the config file up in the root directory and
creates it when it is not there.
-/

namespace NaiveGfs

variable {κ : Type}

/-- `FAT32_DFS_CFG_FILENAME`: the characters of `FS32-DFSCFG`. -/
def fat32DfsCfgFilename : Fin 11 → UInt8 :=
  ![0x46, 0x53, 0x33, 0x32, 0x2d, 0x44, 0x46, 0x53, 0x43, 0x46, 0x47]

/-- `dfs_init_config`; the record buffers of the two calls are different stack memory. -/
def dfsInitConfig (drv : Driver κ) (vol : Volume) (stack stack' : Sector) (fuel : ℕ) (s : Fs κ) :
    Option (UInt32 × Fs κ) :=
  match fat32GetClusterNo drv vol fat32DfsCfgFilename stack fuel s with
  | none => none
  | some (configClusterNo, s) =>
    if configClusterNo = 0xffffffff then
      fat32AllocLocalFile drv vol 2 fat32DfsCfgFilename stack' fuel s
    else some (configClusterNo, s)

/-- Where the lookup finds the file, the call returns its cluster and writes nothing. -/
theorem dfsInitConfig_of_found {drv : Driver κ} {vol : Volume} {stack : Sector} {fuel : ℕ}
    {s t : Fs κ} {c : UInt32} (hc : c ≠ 0xffffffff)
    (h : fat32GetClusterNo drv vol fat32DfsCfgFilename stack fuel s = some (c, t))
    (stack' : Sector) : dfsInitConfig drv vol stack stack' fuel s = some (c, t) := by
  rw [dfsInitConfig, h]
  exact if_neg hc

/-- Where it does not, the call creates the file. -/
theorem dfsInitConfig_of_notFound {drv : Driver κ} {vol : Volume} {stack : Sector} {fuel : ℕ}
    {s t : Fs κ}
    (h : fat32GetClusterNo drv vol fat32DfsCfgFilename stack fuel s = some (0xffffffff, t))
    (stack' : Sector) : dfsInitConfig drv vol stack stack' fuel s =
      fat32AllocLocalFile drv vol 2 fat32DfsCfgFilename stack' fuel t := by
  rw [dfsInitConfig, h]
  exact if_pos rfl

end NaiveGfs
