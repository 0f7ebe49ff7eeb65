import Pantavisor.Lib.CString
import Pantavisor.Lib.KeyedList
import Pantavisor.Lib.EntryBlock
import Pantavisor.Bootloader.Uboot
import Pantavisor.Bootloader.UbootMap
import Pantavisor.Bootloader.Grub
import Pantavisor.Bootloader.GrubMap
import Pantavisor.Bootloader.Isolation
import Pantavisor.Bootloader.Committed
import Pantavisor.Lib.Run
import Pantavisor.Controller.Rollback
import Pantavisor.Controller.Attempt
import Pantavisor.Controller.EnvReports
import Pantavisor.Lib.JsonText
import Pantavisor.Json.Jsmn
import Pantavisor.State.State
import Pantavisor.Parser.System1
import Pantavisor.Signature.Coverage
import Pantavisor.Signature.Malformed
import Pantavisor.Storage.Checksum
import Pantavisor.Controller.Progress
import Pantavisor.Controller.Verified
import Pantavisor.Lib.FileTree
import Pantavisor.Lib.FileTreeTheorems
import Pantavisor.Lib.FileTreeGrow
import Pantavisor.Storage.Storage
import Pantavisor.Storage.Expand
import Pantavisor.Storage.Factory
import Pantavisor.Lib.FileTreeFence
import Pantavisor.Storage.Install
import Pantavisor.Storage.Device
import Pantavisor.Storage.InstallKeeps
import Pantavisor.Storage.Pool
import Pantavisor.Storage.PoolDigests
import Pantavisor.Lib.JsonValue
import Pantavisor.Json.Format
import Pantavisor.Metadata.Upload
import Pantavisor.Lib.Lines
import Pantavisor.PhLogger.Delivery
import Pantavisor.Controller.Verdict
import Pantavisor.Controller.Retries
import Pantavisor.Controller.Deferral
import Pantavisor.Json.Document
import Pantavisor.Parser.Partition
import Pantavisor.Parser.Accepted
import Pantavisor.Parser.Bootable
import Pantavisor.Parser.Runlevels
import Pantavisor.Parser.KeyOrder
import Pantavisor.Parser.Safe
import Pantavisor.Parser.Links
import Pantavisor.Parser.Transition
import Pantavisor.Platforms.Order
import Pantavisor.Platforms.Kills
import Pantavisor.Volumes.Undone
import Pantavisor.Lib.Decimal
import Pantavisor.PhLogger.Record
import Pantavisor.Config.Creds
import Pantavisor.Metadata.Reload
import Pantavisor.PhLogger.Receive
import Pantavisor.PhLogger.LineSplitter
import Pantavisor.Metadata.Put
import Pantavisor.Metadata.FactoryMeta
import Pantavisor.Signature.Base64
import Pantavisor.Ctrl.Request
import Pantavisor.Ctrl.PutFile
import Pantavisor.Config.LoadFile
import Pantavisor.Config.Cmdline
import Pantavisor.Listing.Exact
import Pantavisor.Ctrl.Match
import Pantavisor.Ctrl.StepPut
import Pantavisor.Bootloader.UbootBounds
import Pantavisor.Updater.ObjectUrl
import Pantavisor.Updater.ProgressObjects
import Pantavisor.Updater.FirstBoot
import Pantavisor.Network.Interfaces
import Pantavisor.Signature.Patterns
import Pantavisor.Lib.FileTreeAround
import Pantavisor.Json.FormatBuffer
import Pantavisor.Utils.Timer
import Pantavisor.Lib.Replace
import Pantavisor.Utils.ReplaceCode
import Pantavisor.Parser.ActionKeys
import Pantavisor.Storage.Installed
import Pantavisor.Lib.FileTreeKept
import Pantavisor.Storage.Collect
import Pantavisor.Storage.CollectBoots
import Pantavisor.Storage.Survives
import Pantavisor.Log.Buffers
import Pantavisor.State.TransferLinks
import Pantavisor.Ctrl.Answers
import Pantavisor.Ctrl.Server
import Pantavisor.Lib.FileTreeChanged
import Pantavisor.Ctrl.Served
import Pantavisor.PhLogger.Once
import Pantavisor.PhLogger.Services
import Pantavisor.PhLogger.LeftBehind
import Pantavisor.PhLogger.RangeService
import Pantavisor.PhLogger.RangeEnds
