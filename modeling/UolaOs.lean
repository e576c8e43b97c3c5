import UolaOs.Lib.Bytes
import UolaOs.Lib.Bits
import UolaOs.Lib.CString
import UolaOs.Lib.ChainTable
import UolaOs.Lib.Numeral
import UolaOs.Lib.Packing
import UolaOs.Lib.Crc32
import UolaOs.Lib.Reaches
import UolaOs.Lib.Records
import UolaOs.Lib.Cipher
import UolaOs.Lib.BlockHash
import UolaOs.Lib.Md5
import UolaOs.Lib.File
import UolaOs.Lib.Buffer
import UolaOs.Lib.Scanf
import UolaOs.Lib.Mask
import UolaOs.Nvram.Table
import UolaOs.Nvram.Image
import UolaOs.Nvram.Commit
import UolaOs.Nvram.Durability
import UolaOs.Rb.SoftConfig
import UolaOs.Rb.Commit
import UolaOs.Switch.Rtl8366
import UolaOs.Switch.Calls
import UolaOs.Switch.Mirror
import UolaOs.Switch.Isolation
import UolaOs.Map.Rule
import UolaOs.Map.Sharing
import UolaOs.Mtd.Flash
import UolaOs.Mtd.Write
import UolaOs.Mtd.Placement
import UolaOs.Mtd.OneDevice
import UolaOs.Mtd.Devices
import UolaOs.Mtd.Jffs2
import UolaOs.Mtd.Nodes
import UolaOs.Mtd.Append
import UolaOs.Mtd.AppendFile
import UolaOs.Mtd.Counters
import UolaOs.Mtd.Fis
import UolaOs.Mtd.Remap
import UolaOs.Ead.Server
import UolaOs.Ead.Login
import UolaOs.Ead.Replay
import UolaOs.Buffalo.Enc
import UolaOs.Buffalo.RoundTrip
import UolaOs.Seama.Md5
import UolaOs.Seama.Oseama
import UolaOs.Seama.Entity
import UolaOs.Seama.Fix
import UolaOs.Otrx.Otrx
import UolaOs.Otrx.Agree
import UolaOs.Bcm4908img.Img
import UolaOs.Bcm4908img.Agree
import UolaOs.Bcm4908img.Bootfs
import UolaOs.Bcm4908img.Rename
import UolaOs.Switch.Dump
import UolaOs.Ar8216.Vlan
import UolaOs.Ar8216.Forward
import UolaOs.Ar8327.Tags
import UolaOs.Rtl83xx.Fdb
import UolaOs.Rtl83xx.Runs
import UolaOs.Rtl83xx.Family
import UolaOs.Rtl83xx.Regs
import UolaOs.Rtl83xx.Isolation
import UolaOs.Rtl83xx.Vlan
import UolaOs.Rtl83xx.Mirror
import UolaOs.Rtl83xx.Lag
import UolaOs.Rtl83xx.Filter
import UolaOs.Rtl83xx.Command
import UolaOs.Rtl83xx.Rates
import UolaOs.Rtl83xx.VlanTables
import UolaOs.Trx.Trx
import UolaOs.Trx.Agree
import UolaOs.Safeloader.Builder
import UolaOs.Safeloader.Reader
import UolaOs.Safeloader.Layout
import UolaOs.Safeloader.RoundTrip
import UolaOs.Safeloader.Osafeloader
import UolaOs.Lib.Explore
import UolaOs.Feeds.Install
import UolaOs.Feeds.Closure
import UolaOs.Feeds.Installed
import UolaOs.B53.Apply
import UolaOs.Ip17xx.State
import UolaOs.Ip17xx.Follows
import UolaOs.Nvram.Checksum
import UolaOs.Nvram.Bounds
import UolaOs.Nvram.Scan
import UolaOs.Map.Ports
import UolaOs.Map.Prefix
import UolaOs.Map.Safety
import UolaOs.Lib.Loop
import UolaOs.Mtd.Walk
import UolaOs.Mtd.Lookup
import UolaOs.Hostapd.Ban
import UolaOs.Lib.Hash
import UolaOs.Lib.Text
import UolaOs.Kconfig.Config
import UolaOs.Kconfig.Laws
import UolaOs.Safeloader.Sysupgrade
import UolaOs.Safeloader.Split
import UolaOs.Safeloader.Convert
import UolaOs.Seama.Info
import UolaOs.Lib.FlashArea
import UolaOs.Mtd.BootCount
import UolaOs.Lib.BlockCipher
import UolaOs.Ead.Crypt
import UolaOs.Ead.Resync
import UolaOs.Mtd.FixTrx
import UolaOs.Ptgen.Layout
import UolaOs.Ptgen.Mbr
import UolaOs.Ptgen.Gpt
import UolaOs.Lib.Extremes
import UolaOs.Mtd.Regions
import UolaOs.Ead.Reject
import UolaOs.Ead.Reply
import UolaOs.Lib.RunLength
import UolaOs.Rb.Tag
import UolaOs.Rb.Rle
import UolaOs.Rb.WlanData
import UolaOs.Mtdsplit.Device
import UolaOs.Mtdsplit.Image
import UolaOs.Mtdsplit.Fit
import UolaOs.Mtdsplit.Trx
import UolaOs.Mtdsplit.Wfi
import UolaOs.Mtdsplit.BcmWfi
import UolaOs.Mtdsplit.Bootfs
import UolaOs.Padjffs2.Pad
import UolaOs.Routerboot.Dynparts
import UolaOs.Routerboot.Partitions
import UolaOs.Routerboot.Runs
import UolaOs.Ar8216.Arl
import UolaOs.Tffs.Nand
import UolaOs.Tffs.Scan
import UolaOs.Tffs.Flat
import UolaOs.Gpio.Debounce
import UolaOs.Lib.Precedence
import UolaOs.Metadata.MenuOrder
import UolaOs.Metadata.Version
import UolaOs.Metadata.Overrides
import UolaOs.Metadata.Packages
import UolaOs.Metadata.Usergroup
import UolaOs.Ipcalc.Ipcalc
import UolaOs.Iwcap.Ring
import UolaOs.Bcm4908img.Nodes
import UolaOs.Bcm4908asus.Insert
import UolaOs.Jboot.ConfigRead
import UolaOs.Swconfig.SetPorts
import UolaOs.Swconfig.PortList
import UolaOs.Jcgimage.Craft
import UolaOs.Pc1crypt.RoundTrip
import UolaOs.Mkzynfw.FixUp
import UolaOs.Mkzynfw.Layout
import UolaOs.Lib.Lz77
import UolaOs.Ntfs3.Lznt
import UolaOs.Ntfs3.LzntMatch
import UolaOs.Ntfs3.LzntDecode
import UolaOs.Ntfs3.LzntEncode
import UolaOs.Ntfs3.LzntRoundTrip
import UolaOs.Ntfs3.Run
import UolaOs.Ntfs3.RunLookup
import UolaOs.Ntfs3.RunConsolidate
import UolaOs.Ntfs3.RunAdd
import UolaOs.Ntfs3.RunStore
import UolaOs.Ntfs3.RunPack
import UolaOs.Ntfs3.RunRoundTrip
import UolaOs.Config.Expr
import UolaOs.Config.Equal
import UolaOs.Config.Transform
import UolaOs.Config.Join
