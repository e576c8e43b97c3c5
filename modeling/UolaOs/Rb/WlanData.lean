import UolaOs.Rb.Rle

/-!
# RouterBOOT's WLAN calibration data

How rb_hardconfig.c unpacks the payload of the WLAN tag, with the LZO decompression of the kernel
as a parameter:

* `hcWlanDataUnpackErd`, `hcWlanDataUnpackLzor`, `hcWlanDataUnpack`: the formats;
* `Unpacks`: the words, tags and payloads on the way are all there;
* `hcWlanDataUnpack_iff`: the reads stay inside, and no length wraps, exactly then.
-/

namespace UolaOs.Rb

/-- `lzo1x_decompress_safe`: what it returns for a source and a capacity, and the bytes that it
leaves. -/
structure Lzo where
  decompress : Bytes → Nat → Int × Bytes
  fits : ∀ (src : Bytes) (cap : Nat), (decompress src cap).2.length ≤ cap

/-- `LZO_E_INPUT_NOT_CONSUMED` -/
def lzoInputNotConsumed : Int := -8

/-- `RB_MAGIC_LZOR` -/
def rbMagicLzor : Nat := 0x524f5a4c

/-- `RB_MAGIC_ERD` -/
def rbMagicErd : Nat := 0x455244

/-- `RB_ID_WLAN_DATA` -/
def rbIdWlanData : UInt16 := 0x16

/-- `RB_WLAN_ERD_ID_SOLO` -/
def rbWlanErdIdSolo : UInt16 := 0x0001

/-- `RB_ART_SIZE` -/
def rbArtSize : Nat := 0x10000

/-- `hc_lzor_prefix` -/
def hcLzorPrefix : Bytes :=
  [
   0x00, 0x05, 0x4c, 0x4c, 0x44, 0x00, 0x34, 0xfe, 0xfe, 0x34, 0x11, 0x3c, 0x1e, 0x3c, 0x2e, 0x3c,
   0x4c, 0x34, 0x00, 0x52, 0x62, 0x92, 0xa2, 0xb2, 0xc3, 0x2a, 0x14, 0x00, 0x00, 0x05, 0xfe, 0x6a,
   0x3c, 0x16, 0x32, 0x16, 0x11, 0x1e, 0x12, 0x46, 0x32, 0x46, 0x11, 0x4e, 0x12, 0x36, 0x32, 0x36,
   0x11, 0x3e, 0x12, 0x5a, 0x9a, 0x64, 0x00, 0x04, 0xfe, 0x10, 0x3c, 0x00, 0x01, 0x00, 0x00, 0x28,
   0x0c, 0x00, 0x0f, 0xfe, 0x14, 0x00, 0x24, 0x24, 0x23, 0x24, 0x24, 0x23, 0x25, 0x22, 0x21, 0x21,
   0x23, 0x22, 0x21, 0x22, 0x21, 0x2d, 0x38, 0x00, 0x0c, 0x25, 0x25, 0x24, 0x25, 0x25, 0x24, 0x23,
   0x22, 0x21, 0x20, 0x23, 0x21, 0x21, 0x22, 0x21, 0x2d, 0x38, 0x00, 0x28, 0xb0, 0x00, 0x00, 0x22,
   0x00, 0x00, 0xc0, 0xfe, 0x03, 0x00, 0xc0, 0x00, 0x62, 0xff, 0x62, 0xff, 0xfe, 0x06, 0x00, 0xbb,
   0xff, 0xba, 0xff, 0xfe, 0x08, 0x00, 0x9e, 0xff, 0xfe, 0x0a, 0x00, 0x53, 0xff, 0xfe, 0x02, 0x00,
   0x20, 0xff, 0xb1, 0xfe, 0xfe, 0xb2, 0xfe, 0xfe, 0xed, 0xfe, 0xfe, 0xfe, 0x04, 0x00, 0x3a, 0xff,
   0x3a, 0xff, 0xde, 0xfd, 0x5f, 0x04, 0x33, 0xff, 0x4c, 0x74, 0x03, 0x05, 0x05, 0xff, 0x6d, 0xfe,
   0xfe, 0x6d, 0xfe, 0xfe, 0xaf, 0x08, 0x63, 0xff, 0x64, 0x6f, 0x08, 0xac, 0xff, 0xbf, 0x6d, 0x08,
   0x7a, 0x6d, 0x08, 0x96, 0x74, 0x04, 0x00, 0x08, 0x79, 0xff, 0xda, 0xfe, 0xfe, 0xdb, 0xfe, 0xfe,
   0x56, 0xff, 0xfe, 0x04, 0x00, 0x5e, 0xff, 0x5e, 0xff, 0x6c, 0xfe, 0xfe, 0xfe, 0x06, 0x00, 0x41,
   0xff, 0x7f, 0x74, 0x03, 0x00, 0x11, 0x44, 0xff, 0xa9, 0xfe, 0xfe, 0xa9, 0xfe, 0xfe, 0xa5, 0x8f,
   0x01, 0x00, 0x08, 0x01, 0x01, 0x02, 0x04, 0x08, 0x02, 0x04, 0x08, 0x08, 0x01, 0x01, 0xfe, 0x22,
   0x00, 0x4c, 0x60, 0x64, 0x8c, 0x90, 0xd0, 0xd4, 0xd8, 0x5c, 0x10, 0x09, 0xd8, 0xff, 0xb0, 0xff,
   0x00, 0x00, 0xba, 0xff, 0x14, 0x00, 0xba, 0xff, 0x64, 0x00, 0x00, 0x08, 0xfe, 0x06, 0x00, 0x74,
   0xff, 0x42, 0xff, 0xce, 0xff, 0x60, 0xff, 0x0a, 0x00, 0xb4, 0x00, 0xa0, 0x00, 0xa0, 0xfe, 0x07,
   0x00, 0x0a, 0x00, 0xb0, 0xff, 0x96, 0x4d, 0x00, 0x56, 0x57, 0x18, 0xa6, 0xff, 0x92, 0x70, 0x11,
   0x00, 0x12, 0x90, 0x90, 0x76, 0x5a, 0x54, 0x54, 0x4c, 0x46, 0x38, 0x00, 0x10, 0x10, 0x08, 0xfe,
   0x05, 0x00, 0x38, 0x29, 0x25, 0x23, 0x22, 0x22, 0x1f, 0x00, 0x00, 0x00, 0xf6, 0xe1, 0xdd, 0xf8,
   0xfe, 0x00, 0xfe, 0x15, 0x00, 0x00, 0xd0, 0x02, 0x74, 0x02, 0x08, 0xf8, 0xe5, 0xde, 0x02, 0x04,
   0x04, 0xfd, 0x00, 0x00, 0x00, 0x07, 0x50, 0x2d, 0x01, 0x90, 0x90, 0x76, 0x60, 0xb0, 0x07, 0x07,
   0x0c, 0x0c, 0x04, 0xfe, 0x05, 0x00, 0x66, 0x66, 0x5a, 0x56, 0xbc, 0x01, 0x06, 0xfc, 0xfc, 0xf1,
   0xfe, 0x07, 0x00, 0x24, 0x95, 0x70, 0x64, 0x18, 0x06, 0x2c, 0xff, 0xb5, 0xfe, 0xfe, 0xb5, 0xfe,
   0xfe, 0xe2, 0x8c, 0x24, 0x02, 0x2f, 0xff, 0x2f, 0xff, 0xb4, 0x78, 0x02, 0x05, 0x73, 0xff, 0xed,
   0xfe, 0xfe, 0x4f, 0xff, 0x36, 0x74, 0x1e, 0x09, 0x4f, 0xff, 0x50, 0xff, 0xfe, 0x16, 0x00, 0x70,
   0xac, 0x70, 0x8e, 0xac, 0x40, 0x0e, 0x01, 0x70, 0x7f, 0x8e, 0xac, 0x6c, 0x00, 0x0b, 0xfe, 0x02,
   0x00, 0xfe, 0x0a, 0x2c, 0x2a, 0x2a, 0x28, 0x26, 0x1e, 0x1e, 0xfe, 0x02, 0x20, 0x65, 0x20, 0x00,
   0x00, 0x05, 0x12, 0x00, 0x11, 0x1e, 0x11, 0x11, 0x41, 0x1e, 0x41, 0x11, 0x31, 0x1e, 0x31, 0x11,
   0x70, 0x75, 0x7a, 0x7f, 0x84, 0x89, 0x8e, 0x93, 0x98, 0x30, 0x20, 0x00, 0x02, 0x00, 0xfe, 0x06,
   0x3c, 0xbc, 0x32, 0x0c, 0x00, 0x00, 0x2a, 0x12, 0x1e, 0x12, 0x2e, 0x12, 0xcc, 0x12, 0x11, 0x1a,
   0x1e, 0x1a, 0x2e, 0x1a, 0x4c, 0x10, 0x1e, 0x10, 0x11, 0x18, 0x1e, 0x42, 0x1e, 0x42, 0x2e, 0x42,
   0xcc, 0x42, 0x11, 0x4a, 0x1e, 0x4a, 0x2e, 0x4a, 0x4c, 0x40, 0x1e, 0x40, 0x11, 0x48, 0x1e, 0x32,
   0x1e, 0x32, 0x2e, 0x32, 0xcc, 0x32, 0x11, 0x3a, 0x1e, 0x3a, 0x2e, 0x3a, 0x4c, 0x30, 0x1e, 0x30,
   0x11, 0x38, 0x1e, 0x27, 0x9a, 0x01, 0x9d, 0xa2, 0x2f, 0x28, 0x00, 0x00, 0x46, 0xde, 0xc4, 0xbf,
   0xa6, 0x9d, 0x81, 0x7b, 0x5c, 0x61, 0x40, 0xc7, 0xc0, 0xae, 0xa9, 0x8c, 0x83, 0x6a, 0x62, 0x50,
   0x3e, 0xce, 0xc2, 0xae, 0xa3, 0x8c, 0x7b, 0x6a, 0x5a, 0x50, 0x35, 0xd7, 0xc2, 0xb7, 0xa4, 0x95,
   0x7e, 0x72, 0x5a, 0x59, 0x37, 0xfe, 0x02, 0xf8, 0x8c, 0x95, 0x90, 0x8f, 0x00, 0xd7, 0xc0, 0xb7,
   0xa2, 0x95, 0x7b, 0x72, 0x56, 0x59, 0x32, 0xc7, 0xc3, 0xae, 0xad, 0x8c, 0x85, 0x6a, 0x63, 0x50,
   0x3e, 0xce, 0xc3, 0xae, 0xa4, 0x8c, 0x7c, 0x6a, 0x59, 0x50, 0x34, 0xd7, 0xc2, 0xb7, 0xa5, 0x95,
   0x7e, 0x72, 0x59, 0x59, 0x36, 0xfc, 0x05, 0x00, 0x02, 0xce, 0xc5, 0xae, 0xa5, 0x95, 0x83, 0x72,
   0x5c, 0x59, 0x36, 0xbf, 0xc6, 0xa5, 0xab, 0x8c, 0x8c, 0x6a, 0x67, 0x50, 0x41, 0x64, 0x07, 0x00,
   0x02, 0x95, 0x8c, 0x72, 0x65, 0x59, 0x3f, 0xce, 0xc7, 0xae, 0xa8, 0x95, 0x86, 0x72, 0x5f, 0x59,
   0x39, 0xfe, 0x02, 0xf8, 0x8b, 0x7c, 0x0b, 0x09, 0xb7, 0xc2, 0x9d, 0xa4, 0x83, 0x85, 0x6a, 0x6b,
   0x50, 0x44, 0xb7, 0xc1, 0x64, 0x01, 0x00, 0x06, 0x61, 0x5d, 0x48, 0x3d, 0xae, 0xc4, 0x9d, 0xad,
   0x7b, 0x85, 0x61, 0x66, 0x48, 0x46, 0xae, 0xc3, 0x95, 0xa3, 0x72, 0x7c, 0x59, 0x56, 0x38, 0x31,
   0x7c, 0x0b, 0x00, 0x0c, 0x96, 0x91, 0x8f, 0x00, 0xb7, 0xc0, 0xa5, 0xab, 0x8c, 0x8a, 0x6a, 0x64,
   0x50, 0x3c, 0xb7, 0xc0, 0x9d, 0xa0, 0x83, 0x80, 0x6a, 0x64, 0x50, 0x3d, 0xb7, 0xc5, 0x9d, 0xa5,
   0x83, 0x87, 0x6c, 0x08, 0x07, 0xae, 0xc0, 0x9d, 0xa8, 0x83, 0x88, 0x6a, 0x6d, 0x50, 0x46, 0xfc,
   0x05, 0x00, 0x16, 0xbf, 0xc0, 0xa5, 0xa2, 0x8c, 0x7f, 0x6a, 0x57, 0x50, 0x2f, 0xb7, 0xc7, 0xa5,
   0xb1, 0x8c, 0x8e, 0x72, 0x6d, 0x59, 0x45, 0xbf, 0xc6, 0xa5, 0xa8, 0x8c, 0x87, 0x6a, 0x5f, 0x50,
   0x37, 0xbf, 0xc2, 0xa5, 0xa4, 0x8c, 0x83, 0x6a, 0x5c, 0x50, 0x34, 0xbc, 0x05, 0x00, 0x0e, 0x90,
   0x00, 0xc7, 0xc2, 0xae, 0xaa, 0x95, 0x82, 0x7b, 0x60, 0x61, 0x3f, 0xb7, 0xc6, 0xa5, 0xb1, 0x8c,
   0x8d, 0x72, 0x6b, 0x61, 0x51, 0xbf, 0xc4, 0xa5, 0xa5, 0x8c, 0x82, 0x72, 0x61, 0x59, 0x39, 0x6c,
   0x26, 0x03, 0x95, 0x82, 0x7b, 0x61, 0x61, 0x40, 0xfc, 0x05, 0x00, 0x00, 0x7e, 0xd7, 0xc3, 0xb7,
   0xa8, 0x9d, 0x80, 0x83, 0x5d, 0x6a, 0x3f, 0xbf, 0xc7, 0xa5, 0xa8, 0x8c, 0x84, 0x72, 0x60, 0x61,
   0x46, 0xbf, 0xc2, 0xae, 0xb0, 0x9d, 0x92, 0x83, 0x6f, 0x6a, 0x50, 0xd7, 0xc3, 0xb7, 0xa7, 0x9d,
   0x80, 0x83, 0x5e, 0x6a, 0x40, 0xfe, 0x02, 0xf8, 0x8d, 0x96, 0x90, 0x90, 0xfe, 0x05, 0x00, 0x8a,
   0xc4, 0x63, 0xb8, 0x3c, 0xa6, 0x29, 0x97, 0x16, 0x81, 0x84, 0xb7, 0x5b, 0xa9, 0x33, 0x94, 0x1e,
   0x83, 0x11, 0x70, 0xb8, 0xc2, 0x70, 0xb1, 0x4d, 0xa3, 0x2a, 0x8d, 0x1b, 0x7b, 0xa8, 0xbc, 0x68,
   0xab, 0x47, 0x9d, 0x27, 0x87, 0x18, 0x75, 0xae, 0xc6, 0x7d, 0xbb, 0x4d, 0xaa, 0x1c, 0x84, 0x11,
   0x72, 0xa3, 0xbb, 0x6e, 0xad, 0x3c, 0x97, 0x24, 0x85, 0x16, 0x71, 0x80, 0xb2, 0x57, 0xa4, 0x30,
   0x8e, 0x1c, 0x7c, 0x10, 0x68, 0xbb, 0xbd, 0x75, 0xac, 0x4f, 0x9e, 0x2b, 0x87, 0x1a, 0x76, 0x96,
   0xc5, 0x5e, 0xb5, 0x3e, 0xa5, 0x1f, 0x8c, 0x12, 0x7a, 0xc1, 0xc6, 0x42, 0x9f, 0x27, 0x8c, 0x16,
   0x77, 0x0f, 0x67, 0x9d, 0xbc, 0x68, 0xad, 0x36, 0x95, 0x20, 0x83, 0x11, 0x6d, 0x9b, 0xb8, 0x67,
   0xa8, 0x34, 0x90, 0x1f, 0x7c, 0x10, 0x67, 0x9e, 0xc9, 0x6a, 0xbb, 0x37, 0xa4, 0x20, 0x90, 0x11,
   0x7b, 0xc6, 0xc8, 0x47, 0xa4, 0x2a, 0x90, 0x18, 0x7b, 0x10, 0x6c, 0xae, 0xc4, 0x5d, 0xad, 0x37,
   0x9a, 0x1f, 0x85, 0x13, 0x75, 0x70, 0xad, 0x42, 0x99, 0x25, 0x84, 0x17, 0x74, 0x0b, 0x56, 0x87,
   0xc8, 0x57, 0xb8, 0x2b, 0x9e, 0x19, 0x8a, 0x0d, 0x74, 0xa7, 0xc8, 0x6e, 0xb9, 0x36, 0xa0, 0x1f,
   0x8b, 0x11, 0x75, 0x94, 0xbe, 0x4b, 0xa5, 0x2a, 0x92, 0x18, 0x7c, 0x0f, 0x6b, 0xaf, 0xc0, 0x58,
   0xa8, 0x34, 0x94, 0x1d, 0x7d, 0x12, 0x6d, 0x82, 0xc0, 0x52, 0xb0, 0x25, 0x94, 0x14, 0x7f, 0x0c,
   0x68, 0x84, 0xbf, 0x3e, 0xa4, 0x22, 0x8e, 0x10, 0x76, 0x0b, 0x65, 0x88, 0xb6, 0x42, 0x9b, 0x26,
   0x87, 0x14, 0x70, 0x0c, 0x5f, 0xc5, 0xc2, 0x3e, 0x97, 0x23, 0x83, 0x13, 0x6c, 0x0c, 0x5c, 0xb1,
   0xc9, 0x76, 0xbc, 0x4a, 0xaa, 0x20, 0x8d, 0x12, 0x78, 0x93, 0xbf, 0x46, 0xa3, 0x26, 0x8d, 0x14,
   0x74, 0x0c, 0x62, 0xc8, 0xc4, 0x3b, 0x97, 0x21, 0x82, 0x11, 0x6a, 0x0a, 0x59, 0xa3, 0xb9, 0x68,
   0xa9, 0x30, 0x8d, 0x1a, 0x78, 0x0f, 0x61, 0xa0, 0xc9, 0x73, 0xbe, 0x50, 0xb1, 0x30, 0x9f, 0x14,
   0x80, 0x83, 0xb7, 0x3c, 0x9a, 0x20, 0x84, 0x0e, 0x6a, 0x0a, 0x57, 0xac, 0xc2, 0x68, 0xb0, 0x2e,
   0x92, 0x19, 0x7c, 0x0d, 0x63, 0x93, 0xbe, 0x62, 0xb0, 0x3c, 0x9e, 0x1a, 0x80, 0x0e, 0x6b, 0xbb,
   0x02, 0xa0, 0x02, 0xa0, 0x02, 0x6f, 0x00, 0x75, 0x00, 0x75, 0x00, 0x00, 0x00, 0xad, 0x02, 0xb3,
   0x02, 0x6f, 0x00, 0x87, 0x00, 0x85, 0xfe, 0x03, 0x00, 0xc2, 0x02, 0x82, 0x4d, 0x92, 0x6e, 0x4d,
   0xb1, 0xa8, 0x84, 0x01, 0x00, 0x07, 0x7e, 0x00, 0xa8, 0x02, 0xa4, 0x02, 0xa4, 0x02, 0xa2, 0x00,
   0xa6, 0x00, 0xa6, 0x00, 0x00, 0x00, 0xb4, 0x02, 0xb4, 0x02, 0x92, 0x00, 0x96, 0x00, 0x96, 0x46,
   0x04, 0xb0, 0x02, 0x64, 0x02, 0x0a, 0x8c, 0x00, 0x90, 0x02, 0x98, 0x02, 0x98, 0x02, 0x0e, 0x01,
   0x11, 0x01, 0x11, 0x50, 0xc3, 0x08, 0x88, 0x02, 0x88, 0x02, 0x19, 0x01, 0x02, 0x01, 0x02, 0x01,
   0xf3, 0x2d, 0x00, 0x00]

/-- A length minus another. -/
def subLen (a b : Nat) : Except Fault Nat := if b ≤ a then .ok (a - b) else .error .wrapped

section
variable (e : Endian) (lzo : Lzo)

/-- `hc_wlan_data_unpack_erd` -/
def hcWlanDataUnpackErd (hc : Bytes) (tag_id : UInt16) (inbuf inlen : Nat) (outbuf : Bytes)
    (outlen : Nat) : Except Fault Decoded := do
  match ← routerbootTagFind e hc inbuf inlen tag_id with
  | .error ret => .ok ⟨ret, outbuf, outlen⟩
  | .ok (lzo_ofs, lzo_len) =>
    if inlen < lzo_len.toNat then .ok ⟨-22, outbuf, outlen⟩
    else
      let src ← fetch Fault.outside hc (inbuf + lzo_ofs.toNat) lzo_len.toNat
      let r := lzo.decompress src outlen
      .ok ⟨r.1, poke outbuf 0 r.2, r.2.length⟩

/-- The search for `RB_MAGIC_ERD`: where the needle is behind it. -/
def findMagic (temp : Bytes) (needle : Nat) : Except Fault (Option Nat) := do
  let word ← fetch Fault.outside temp needle 4
  if e.get word = rbMagicErd then .ok (some (needle + 4))
  else if temp.length ≤ needle + 4 then .ok none
  else findMagic temp (needle + 4)
termination_by temp.length - needle

/-- What `hc_wlan_data_unpack_lzor` does with the decompressed bytes. -/
def unpackTemp (temp : Bytes) (tag_id : UInt16) (outbuf : Bytes) (outlen : Nat) :
    Except Fault Decoded := do
  match ← findMagic e temp 0 with
  | none => .ok ⟨-61, outbuf, outlen⟩
  | some needle =>
    let templen ← subLen temp.length needle
    match ← routerbootTagFind e temp needle templen tag_id with
    | .error ret => .ok ⟨ret, outbuf, outlen⟩
    | .ok (rle_ofs, rle_len) =>
      if templen < rle_len.toNat then .ok ⟨-22, outbuf, outlen⟩
      else routerbootRleDecode temp (needle + rle_ofs.toNat) rle_len.toNat outbuf outlen

/-- `hc_wlan_data_unpack_lzor`; `kmalloc` tells whether there is memory for the temporary buffer. -/
def hcWlanDataUnpackLzor (kmalloc : Bool) (hc : Bytes) (tag_id : UInt16) (inbuf inlen : Nat)
    (outbuf : Bytes) (outlen : Nat) : Except Fault Decoded := do
  let lzo_len := inlen + hcLzorPrefix.length
  if outlen < lzo_len then .ok ⟨-27, outbuf, outlen⟩
  else if kmalloc = false then .ok ⟨-12, outbuf, outlen⟩
  else
    let outbuf ← store Fault.outside outbuf 0 hcLzorPrefix
    let bytes ← fetch Fault.outside hc inbuf inlen
    let outbuf ← store Fault.outside outbuf hcLzorPrefix.length bytes
    let src ← fetch Fault.outside outbuf 0 lzo_len
    let r := lzo.decompress src outlen
    if r.1 ≠ 0 ∧ r.1 ≠ lzoInputNotConsumed then .ok ⟨r.1, outbuf, outlen⟩
    else unpackTemp e r.2 tag_id outbuf outlen

/-- `hc_wlan_data_unpack` on the hard config. -/
def hcWlanDataUnpack (kmalloc : Bool) (hc : Bytes) (tag_id : UInt16) (tofs tlen : Nat)
    (outbuf : Bytes) (outlen : Nat) : Except Fault Decoded := do
  if hc.length < tofs + tlen then .ok ⟨-5, outbuf, outlen⟩
  else
    let magic ← fetch Fault.outside hc tofs 4
    if e.get magic = rbMagicLzor then
      let inlen ← subLen tlen 4
      hcWlanDataUnpackLzor e lzo kmalloc hc tag_id (tofs + 4) inlen outbuf outlen
    else if e.get magic = rbMagicErd then
      let inlen ← subLen tlen 4
      hcWlanDataUnpackErd e lzo hc tag_id (tofs + 4) inlen outbuf outlen
    else if rbWlanErdIdSolo = tag_id then routerbootRleDecode hc tofs tlen outbuf outlen
    else .ok ⟨-61, outbuf, outlen⟩

/-- Where `rb_hardconfig_init` found the WLAN tag behind the magic of the hard config. -/
def HasWlanData (hc : Bytes) (tofs tlen : UInt16) : Prop :=
  ∃ ofs, routerbootTagFind e hc 4 (hc.length - 4) rbIdWlanData = .ok (.ok (ofs, tlen)) ∧
    tofs = ofs + 4 ∧ tlen ≠ 0

/-! ## What the formats need -/

/-- The lookup comes to no word that the memory does not hold. -/
def WholeTags (mem : Bytes) (bufhead buflen : Nat) (tag_id : UInt16) : Prop :=
  tag_id ≠ 0 → ∀ p, Visits e mem (bufhead + buflen) tag_id bufhead p → p < bufhead + buflen →
    p + 4 ≤ mem.length

/-- The lookup comes to the tag, whose payload is at this offset and of this length. -/
def TagAt (mem : Bytes) (bufhead buflen : Nat) (tag_id ofs len : UInt16) : Prop :=
  tag_id ≠ 0 ∧ ∃ p, Visits e mem (bufhead + buflen) tag_id bufhead p ∧
    IsTag e mem (bufhead + buflen) tag_id p ∧
    ofs = UInt16.ofNat (p + 4 - bufhead) ∧ len = nodeLen (nodeAt e mem p)

/-- The LZO data are all in the hard config. -/
structure ErdFits (hc : Bytes) (tag_id : UInt16) (inbuf inlen : Nat) : Prop where
  whole : WholeTags e hc inbuf inlen tag_id
  payload : ∀ ofs len : UInt16, TagAt e hc inbuf inlen tag_id ofs len → len.toNat ≤ inlen →
    len.toNat = 0 ∨ inbuf + ofs.toNat + len.toNat ≤ hc.length

/-- The first word that is the magic ends here. -/
def MagicAt (temp : Bytes) (needle : Nat) : Prop :=
  ∃ i, needle = 4 * i + 4 ∧ needle ≤ temp.length ∧ e.get (load temp (4 * i) 4) = rbMagicErd ∧
    ∀ j < i, e.get (load temp (4 * j) 4) ≠ rbMagicErd

/-- The runs behind the magic are all in the decompressed bytes, which are whole words if there is
no magic. -/
structure TempFits (temp : Bytes) (tag_id : UInt16) (outlen : Nat) : Prop where
  magic : (∃ needle, MagicAt e temp needle) ∨ (temp ≠ [] ∧ 4 ∣ temp.length)
  whole : ∀ needle, MagicAt e temp needle →
    WholeTags e temp needle (temp.length - needle) tag_id
  payload : ∀ (needle : Nat) (ofs len : UInt16), MagicAt e temp needle →
    TagAt e temp needle (temp.length - needle) tag_id ofs len →
    len.toNat ≤ temp.length - needle →
    ¬ RunsOut (temp.drop (needle + ofs.toNat)) len.toNat (capacity outlen)

/-- Whatever the format is, the hard config and the decompressed bytes hold what is looked at. -/
def Unpacks (kmalloc : Bool) (hc : Bytes) (tag_id : UInt16) (tofs tlen outlen : Nat) : Prop :=
  hc.length < tofs + tlen ∨
    (tofs + 4 ≤ hc.length ∧
      (e.get (load hc tofs 4) = rbMagicLzor →
        4 ≤ tlen ∧ (tlen - 4 + hcLzorPrefix.length ≤ outlen → kmalloc = true →
          ∀ r, r = lzo.decompress (hcLzorPrefix ++ load hc (tofs + 4) (tlen - 4)) outlen →
            r.1 = 0 ∨ r.1 = lzoInputNotConsumed → TempFits e r.2 tag_id outlen)) ∧
      (e.get (load hc tofs 4) = rbMagicErd → 4 ≤ tlen ∧ ErdFits e hc tag_id (tofs + 4) (tlen - 4)))

end

/-! ## Rules -/

/-- All reads and writes were inside, and no length wrapped. -/
def Clean {α : Type} (x : Except Fault α) : Prop := x ≠ .error .outside ∧ x ≠ .error .wrapped

section
variable {α : Type} {mem bs : Bytes} {off n a b : Nat}

theorem Clean.ok (x : α) : Clean (.ok x) := by
  constructor <;> intro h <;> cases h

theorem not_clean_outside : ¬ Clean (.error .outside : Except Fault α) := fun h => h.1 rfl

theorem not_clean_wrapped : ¬ Clean (.error .wrapped : Except Fault α) := fun h => h.2 rfl

theorem clean_fetch {k : Bytes → Except Fault α} :
    Clean (fetch Fault.outside mem off n >>= k) ↔
      (n = 0 ∨ off + n ≤ mem.length) ∧ Clean (k (load mem off n)) := by
  by_cases h : n = 0 ∨ off + n ≤ mem.length
  · have hok : fetch Fault.outside mem off n = .ok (load mem off n) := by
      rcases h with rfl | h
      · rfl
      · exact fetch_eq h
    rw [hok, ok_bind, and_iff_right h]
  · rw [fetch, if_neg (fun hn => h (.inl hn)), if_neg (fun hle => h (.inr hle))]
    exact iff_of_false not_clean_outside fun hk => h hk.1

theorem clean_store (h : off + bs.length ≤ mem.length) {k : Bytes → Except Fault α} :
    Clean (store Fault.outside mem off bs >>= k) ↔ Clean (k (poke mem off bs)) := by
  rw [store_eq h, ok_bind]

theorem clean_subLen {k : Nat → Except Fault α} :
    Clean (subLen a b >>= k) ↔ b ≤ a ∧ Clean (k (a - b)) := by
  by_cases h : b ≤ a
  · rw [subLen, if_pos h, ok_bind, and_iff_right h]
  · rw [subLen, if_neg h]
    exact iff_of_false not_clean_wrapped fun hk => h hk.1

/-- A lookup, and what is done with its result. -/
theorem clean_tagFind {e : Endian} {bufhead buflen : Nat} {tag_id : UInt16}
    {k : Except Int (UInt16 × UInt16) → Except Fault α} (hk : ∀ ret, Clean (k (.error ret))) :
    Clean (routerbootTagFind e mem bufhead buflen tag_id >>= k) ↔
      WholeTags e mem bufhead buflen tag_id ∧ ∀ ofs len,
        TagAt e mem bufhead buflen tag_id ofs len → Clean (k (.ok (ofs, len))) := by
  by_cases hid : tag_id = 0
  · rw [routerbootTagFind, if_pos hid, ok_bind]
    exact iff_of_true (hk _) ⟨fun h => absurd hid h, fun _ _ h => absurd hid h.1⟩
  · rw [routerbootTagFind, if_neg hid]
    have hwhole : WholeTags e mem bufhead buflen tag_id ↔
        tagLoop e mem bufhead (bufhead + buflen) tag_id bufhead ≠ .error .outside := by
      rw [Ne, tagLoop_outside_iff]
      constructor
      · rintro h ⟨p, hp, hlt, hcut⟩
        have := h hid p hp hlt
        omega
      · intro h _ p hp hlt
        by_contra hcut
        exact h ⟨p, hp, hlt, Nat.lt_of_not_le hcut⟩
    have htag (ofs len : UInt16) : TagAt e mem bufhead buflen tag_id ofs len ↔
        tagLoop e mem bufhead (bufhead + buflen) tag_id bufhead = .ok (.ok (ofs, len)) := by
      rw [tagLoop_found_iff, TagAt, and_iff_right hid]
    rw [hwhole]
    simp only [htag]
    rcases tagLoop_cases e mem bufhead (bufhead + buflen) tag_id bufhead with
      ⟨p, -, -, -, heq⟩ | ⟨p, -, -, heq⟩ | heq
    · rw [heq]
      exact iff_of_false not_clean_outside fun h => h.1 rfl
    · rw [heq, ok_bind]
      constructor
      · intro h
        refine ⟨(fun hout => by cases hout), fun ofs len hofs => ?_⟩
        cases hofs
        exact h
      · exact fun h => h.2 _ _ rfl
    · rw [heq, ok_bind]
      refine iff_of_true (hk _) ⟨(fun hout => by cases hout), fun ofs len hofs => ?_⟩
      cases hofs

end

/-! ## The decoder -/

section
variable {e : Endian} {mem out temp hc : Bytes} {outlen inp inlen nbytes n : Nat}

theorem safe_fetch : Safe (· ≠ Fault.wrapped) (fetch Fault.outside mem inp n) fun _ => True := by
  rw [fetch]
  split
  · exact .ok trivial
  split
  · exact .ok trivial
  · exact .error (by decide)

theorem safe_store : Safe (· ≠ Fault.wrapped) (store Fault.outside out n mem) fun _ => True := by
  rw [store]
  split
  · exact .ok trivial
  split
  · exact .ok trivial
  · exact .error (by decide)

theorem safe_addInt {a : Nat} : Safe (· ≠ Fault.wrapped) (addInt a n) fun _ => True := by
  rw [addInt]
  split
  · exact .ok trivial
  · exact .error (by decide)

theorem rleLoop_ne_wrapped :
    Safe (· ≠ Fault.wrapped) (rleLoop mem outlen inp inlen out nbytes) fun _ => True := by
  induction inlen using Nat.strongRecOn generalizing inp out nbytes with
  | ind inlen ih =>
    rw [rleLoop]
    split
    · refine safe_fetch.bind fun bs _ => ?_
      dsimp only
      split
      · split
        · exact .ok trivial
        · refine safe_addInt.bind fun total _ => ?_
          split
          · exact .ok trivial
          · exact safe_fetch.bind fun _ _ => safe_store.bind fun _ _ => ih _ (by omega)
      · refine safe_fetch.bind fun byte _ => safe_addInt.bind fun total _ => ?_
        split
        · exact .ok trivial
        · exact safe_store.bind fun _ _ => ih _ (by omega)
    · exact .ok trivial

theorem clean_rle (hout : outlen ≤ out.length) :
    Clean (routerbootRleDecode mem inp inlen out outlen) ↔
      ¬ RunsOut (mem.drop inp) inlen (capacity outlen) := by
  rw [routerbootRleDecode]
  split
  · rename_i h
    exact iff_of_true (.ok _) fun hrun => absurd hrun.two_le (Nat.not_le.mpr h)
  · have hwrap : rleLoop mem outlen inp inlen out 0 ≠ .error .wrapped :=
      rleLoop_ne_wrapped.ne_error fun h => h rfl
    rw [Clean, and_iff_left hwrap, Ne, rleLoop_outside_iff hout (Nat.zero_le _), Nat.sub_zero]

/-! ## The search -/

theorem MagicAt.unique {m : Nat} (hn : MagicAt e temp n) (hm : MagicAt e temp m) : n = m := by
  obtain ⟨i, rfl, -, hi, hbefore⟩ := hn
  obtain ⟨j, rfl, -, hj, hbefore'⟩ := hm
  rcases Nat.lt_trichotomy i j with hij | rfl | hij
  · exact absurd hi (hbefore' i hij)
  · rfl
  · exact absurd hj (hbefore j hij)

/-- How the search ends when it has come to a word. -/
theorem findMagic_cases (e : Endian) (temp : Bytes) (i : Nat) (hi : 4 * i ≤ temp.length)
    (hbefore : ∀ j < i, e.get (load temp (4 * j) 4) ≠ rbMagicErd) :
    (findMagic e temp (4 * i) = .error .outside ∧ (∀ n, ¬ MagicAt e temp n) ∧
      (4 * i = temp.length ∨ ¬ 4 ∣ temp.length)) ∨
    (∃ n, MagicAt e temp n ∧ findMagic e temp (4 * i) = .ok (some n)) ∨
    (findMagic e temp (4 * i) = .ok none ∧ (∀ n, ¬ MagicAt e temp n) ∧ temp ≠ [] ∧
      4 ∣ temp.length) := by
  induction hk : temp.length - 4 * i using Nat.strongRecOn generalizing i with
  | ind k ih =>
    rw [findMagic]
    by_cases hfits : 4 * i + 4 ≤ temp.length
    · rw [fetch_eq hfits, ok_bind]
      by_cases hmagic : e.get (load temp (4 * i) 4) = rbMagicErd
      · rw [if_pos hmagic]
        exact .inr (.inl ⟨_, ⟨i, rfl, hfits, hmagic, hbefore⟩, rfl⟩)
      · rw [if_neg hmagic]
        have hbefore' : ∀ j < i + 1, e.get (load temp (4 * j) 4) ≠ rbMagicErd := by
          intro j hj
          rcases Nat.lt_succ_iff_lt_or_eq.mp hj with hlt | rfl
          · exact hbefore j hlt
          · exact hmagic
        by_cases hend : temp.length ≤ 4 * i + 4
        · rw [if_pos hend]
          refine .inr (.inr ⟨rfl, ?_, ?_, by omega⟩)
          · rintro n ⟨j, rfl, hle, hj, -⟩
            exact hbefore' j (by omega) hj
          · rintro rfl
            rw [List.length_nil] at hfits
            omega
        · rw [if_neg hend]
          rcases ih _ (by omega) (i + 1) (by omega) hbefore' rfl with ⟨heq, hno, hcut⟩ | hok | hnone
          · exact .inl ⟨heq, hno, .inr (hcut.resolve_left (by omega))⟩
          · exact .inr (.inl hok)
          · exact .inr (.inr hnone)
    · left
      refine ⟨?_, ?_, by omega⟩
      · rw [fetch, if_neg (by decide), if_neg hfits]
        rfl
      · rintro n ⟨j, rfl, hle, hj, -⟩
        exact hbefore j (by omega) hj

/-- The search, and what is done with its result. -/
theorem clean_findMagic {α : Type} {k : Option Nat → Except Fault α} (hk : Clean (k none)) :
    Clean (findMagic e temp 0 >>= k) ↔
      ((∃ n, MagicAt e temp n) ∨ (temp ≠ [] ∧ 4 ∣ temp.length)) ∧
        ∀ n, MagicAt e temp n → Clean (k (some n)) := by
  rcases findMagic_cases e temp 0 (Nat.zero_le _) (fun j hj => by omega) with
    ⟨heq, hno, hcut⟩ | ⟨n, hn, heq⟩ | ⟨heq, hno, hwhole⟩
  · rw [Nat.mul_zero] at heq hcut
    rw [heq]
    refine iff_of_false not_clean_outside ?_
    rintro ⟨⟨n, hn⟩ | ⟨hne, hdvd⟩, -⟩
    · exact hno n hn
    · rcases hcut with hnil | hcut
      · exact hne (List.eq_nil_of_length_eq_zero hnil.symm)
      · exact hcut hdvd
  · rw [Nat.mul_zero] at heq
    rw [heq, ok_bind]
    constructor
    · intro h
      refine ⟨.inl ⟨n, hn⟩, fun m hm => ?_⟩
      rwa [hm.unique hn]
    · exact fun h => h.2 n hn
  · rw [Nat.mul_zero] at heq
    rw [heq, ok_bind]
    exact iff_of_true hk ⟨.inr hwhole, fun n hn => absurd hn (hno n)⟩

/-! ## The formats -/

section
variable {lzo : Lzo} {tag_id : UInt16} {kmalloc : Bool} {tofs tlen inbuf : Nat}

theorem hcWlanDataUnpackErd_iff :
    Clean (hcWlanDataUnpackErd e lzo hc tag_id inbuf inlen out outlen) ↔
      ErdFits e hc tag_id inbuf inlen := by
  rw [hcWlanDataUnpackErd]
  refine (clean_tagFind fun ret => ?_).trans ?_
  · exact .ok _
  have hfits : ErdFits e hc tag_id inbuf inlen ↔ WholeTags e hc inbuf inlen tag_id ∧
      ∀ ofs len : UInt16, TagAt e hc inbuf inlen tag_id ofs len → len.toNat ≤ inlen →
        len.toNat = 0 ∨ inbuf + ofs.toNat + len.toNat ≤ hc.length :=
    ⟨fun h => ⟨h.whole, h.payload⟩, fun h => ⟨h.1, h.2⟩⟩
  rw [hfits]
  refine and_congr_right fun _ => forall_congr' fun ofs => forall_congr' fun len =>
    imp_congr_right fun _ => ?_
  dsimp only
  split
  · rename_i hlong
    exact iff_of_true (.ok _) fun hle => absurd hlong (Nat.not_lt.mpr hle)
  · rename_i hle
    rw [clean_fetch, and_iff_left (Clean.ok _), imp_iff_right (Nat.le_of_not_lt hle)]

/-- What is done behind the magic. -/
theorem clean_needle (hout : outlen ≤ out.length) {needle : Nat} (hle : needle ≤ temp.length) :
    Clean (subLen temp.length needle >>= fun templen => do
      match ← routerbootTagFind e temp needle templen tag_id with
      | .error ret => .ok ⟨ret, out, outlen⟩
      | .ok (rle_ofs, rle_len) =>
        if templen < rle_len.toNat then .ok ⟨-22, out, outlen⟩
        else routerbootRleDecode temp (needle + rle_ofs.toNat) rle_len.toNat out outlen) ↔
      WholeTags e temp needle (temp.length - needle) tag_id ∧
        ∀ ofs len, TagAt e temp needle (temp.length - needle) tag_id ofs len →
          len.toNat ≤ temp.length - needle →
          ¬ RunsOut (temp.drop (needle + ofs.toNat)) len.toNat (capacity outlen) := by
  rw [clean_subLen, and_iff_right hle]
  refine (clean_tagFind fun ret => ?_).trans ?_
  · exact .ok _
  refine and_congr_right fun _ => forall_congr' fun ofs => forall_congr' fun len =>
    imp_congr_right fun _ => ?_
  dsimp only
  split
  · rename_i hlong
    exact iff_of_true (.ok _) fun hle => absurd hlong (Nat.not_lt.mpr hle)
  · rename_i hle
    rw [clean_rle hout, imp_iff_right (Nat.le_of_not_lt hle)]

theorem unpackTemp_iff (hout : outlen ≤ out.length) :
    Clean (unpackTemp e temp tag_id out outlen) ↔ TempFits e temp tag_id outlen := by
  rw [unpackTemp]
  refine (clean_findMagic ?_).trans ?_
  · exact .ok _
  have hle {needle : Nat} (h : MagicAt e temp needle) : needle ≤ temp.length := by
    obtain ⟨i, -, hle, -⟩ := h
    exact hle
  constructor
  · rintro ⟨hmagic, hneedle⟩
    have h (needle : Nat) (hn : MagicAt e temp needle) :=
      (clean_needle hout (hle hn)).mp (hneedle needle hn)
    exact ⟨hmagic, fun needle hn => (h needle hn).1,
      fun needle ofs len hn => (h needle hn).2 ofs len⟩
  · rintro ⟨hmagic, hwhole, hpayload⟩
    exact ⟨hmagic, fun needle hn => (clean_needle hout (hle hn)).mpr
      ⟨hwhole needle hn, fun ofs len => hpayload needle ofs len hn⟩⟩

theorem hcWlanDataUnpackLzor_iff (hout : outlen ≤ out.length) (hin : inbuf + inlen ≤ hc.length) :
    Clean (hcWlanDataUnpackLzor e lzo kmalloc hc tag_id inbuf inlen out outlen) ↔
      (inlen + hcLzorPrefix.length ≤ outlen → kmalloc = true →
        ∀ r, r = lzo.decompress (hcLzorPrefix ++ load hc inbuf inlen) outlen →
          r.1 = 0 ∨ r.1 = lzoInputNotConsumed → TempFits e r.2 tag_id outlen) := by
  rw [hcWlanDataUnpackLzor]
  dsimp only
  split
  · rename_i hlong
    exact iff_of_true (.ok _) fun hle => absurd hlong (Nat.not_lt.mpr hle)
  rename_i hle
  split
  · rename_i hno
    exact iff_of_true (.ok _) fun _ hyes => by cases hno.symm.trans hyes
  rename_i hyes
  have hload : (load hc inbuf inlen).length = inlen := length_load hin
  have hroom : 0 + hcLzorPrefix.length + (load hc inbuf inlen).length ≤ out.length := by
    rw [hload]
    omega
  have hput := poke_behind hroom
  rw [Nat.zero_add] at hput
  have hsrc : load (poke out 0 (hcLzorPrefix ++ load hc inbuf inlen)) 0
      (inlen + hcLzorPrefix.length) = hcLzorPrefix ++ load hc inbuf inlen := by
    have hlen : (hcLzorPrefix ++ load hc inbuf inlen).length = inlen + hcLzorPrefix.length := by
      rw [List.length_append, hload, Nat.add_comm]
    rw [← hlen, load_poke_self (by rw [hlen]; omega)]
  rw [clean_store (by omega), clean_fetch, and_iff_right (.inr hin),
    clean_store (by rw [length_poke, hload]; omega), clean_fetch,
    and_iff_right (.inr (by rw [length_poke, length_poke]; omega)), hput, hsrc,
    imp_iff_right (Nat.le_of_not_lt hle), imp_iff_right (by simpa using hyes)]
  simp only [forall_eq]
  split
  · rename_i hret
    exact iff_of_true (.ok _) fun hok => absurd hok (not_or.mpr hret)
  · rename_i hret
    rw [unpackTemp_iff (by rwa [length_poke]),
      imp_iff_right (by by_contra hok; exact hret (not_or.mp hok))]

/-- **Unpacking.** The reads stay in the hard config and in the decompressed bytes, the writes in
the output, and no length wraps, exactly when those hold what the formats look at. -/
theorem hcWlanDataUnpack_iff :
    Clean (hcWlanDataUnpack e lzo kmalloc hc tag_id tofs tlen out out.length) ↔
      Unpacks e lzo kmalloc hc tag_id tofs tlen out.length := by
  rw [hcWlanDataUnpack, Unpacks]
  split
  · rename_i hlong
    exact iff_of_true (.ok _) (.inl hlong)
  rename_i hle
  rw [or_iff_right hle, clean_fetch]
  apply and_congr
  · rw [or_iff_right (by decide)]
  by_cases hlzor : e.get (load hc tofs 4) = rbMagicLzor
  · have herd : e.get (load hc tofs 4) ≠ rbMagicErd := by
      rw [hlzor]
      decide
    rw [if_pos hlzor, clean_subLen, imp_iff_right hlzor, and_iff_left fun h => absurd h herd]
    apply and_congr_right
    intro h4
    exact hcWlanDataUnpackLzor_iff (Nat.le_refl _) (by omega)
  · rw [if_neg hlzor, and_iff_right fun h => absurd h hlzor]
    by_cases herd : e.get (load hc tofs 4) = rbMagicErd
    · rw [if_pos herd, clean_subLen, imp_iff_right herd, hcWlanDataUnpackErd_iff]
    · rw [if_neg herd]
      refine iff_of_true ?_ fun h => absurd h herd
      split
      · rw [clean_rle (Nat.le_refl _)]
        exact not_runsOut (by rw [List.length_drop]; omega)
      · exact .ok _

/-- The tag in the ERD data says that its payload is longer than what is left of the hard config. -/
theorem hcWlanDataUnpack_behind :
    ∃ hc : Bytes, hc = [0x48, 0x61, 0x72, 0x64, 0x16, 0x00, 0x0c, 0x00, 0x44, 0x52, 0x45, 0x00,
        0x01, 0x00, 0x08, 0x00, 0xaa, 0xbb, 0xcc, 0xdd] ∧
      HasWlanData .little hc 8 12 ∧ ∀ (lzo : Lzo) (out : Bytes), out.length = rbArtSize →
        ¬ Clean (hcWlanDataUnpack .little lzo true hc rbWlanErdIdSolo 8 12 out out.length) := by
  refine ⟨_, rfl, ⟨4, by decide +kernel, by decide, by decide⟩, fun lzo out _ => ?_⟩
  have htag : routerbootTagFind .little [0x48, 0x61, 0x72, 0x64, 0x16, 0x00, 0x0c, 0x00, 0x44, 0x52,
      0x45, 0x00, 0x01, 0x00, 0x08, 0x00, 0xaa, 0xbb, 0xcc, 0xdd] 12 8 rbWlanErdIdSolo =
        .ok (.ok (4, 8)) := by
    decide +kernel
  rw [hcWlanDataUnpack, if_neg (by decide), fetch_eq (by decide), ok_bind, if_neg (by decide),
    if_pos (by decide), subLen, if_pos (by decide), ok_bind, hcWlanDataUnpackErd, htag, ok_bind]
  dsimp only
  rw [if_neg (by decide), fetch, if_neg (by decide), if_neg (by decide)]
  exact not_clean_outside

end

end

end UolaOs.Rb
